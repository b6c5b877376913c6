import MoonWiki.LuaErrors
import MoonWiki.WikiWord

/-! The lists of pages: the index and the recent changes. -/
namespace MoonWiki
open Lua

variable {name t u v x : Bytes} {b c : Byte} {files : List FileEntry} {s : State}

/-! ### Titles of files -/

/-- What follows the title: one byte, and letters and digits up to the end. -/
def suffixItems : List Item :=
  [.endCapture, .single .any .one, .single (.cls (ch 'w')) .plus, .eos]

theorem doMatch_suffixItems (hx : Plain x) (hne : x ≠ []) (caps : List Capture) :
    doMatch suffixItems (caps ++ [.unfinished (u ++ b :: x)]) (b :: x) =
      some ([], caps ++ [.done u]) := by
  have hend : doMatch [.single (.cls (ch 'w')) .plus, .eos] (caps ++ [.done u]) (x ++ []) =
      some ([], caps ++ [.done u]) := by
    refine doMatch_plus hne hx (by simp) ?_
    rfl
  rw [List.append_nil] at hend
  rw [suffixItems, doMatch_endCapture]
  exact (doMatch_one rfl).trans hend

theorem doMatch_suffixItems_none (hv : v.length ≤ 1) (caps : List Capture) :
    doMatch suffixItems caps v = none := by
  cases hd : doMatch suffixItems caps v with
  | none => rfl
  | some r =>
    obtain ⟨b, x, rfl, _, hd⟩ := doMatch_one_sound hd
    obtain ⟨y, w, rfl, hne, _⟩ := doMatch_plus_sound hd
    have hlength := List.length_pos_iff.mpr hne
    rw [List.length_cons, List.length_append] at hv
    omega

/-- A title is found wherever letters and digits stand before a byte and more of them. -/
theorem matchHere_title_isSome (hne : u ≠ []) (hu : Plain u) (hx : Plain x) (hx' : x ≠ []) :
    (matchHere titleItems (u ++ b :: x)).isSome := by
  cases hm : matchHere titleItems (u ++ b :: x) with
  | some m => rfl
  | none =>
    have hd : doMatch (.single (.cls (ch 'w')) .plus :: suffixItems)
        ([] ++ [.unfinished (u ++ b :: x)]) (u ++ b :: x) = none := Option.map_eq_none_iff.mp hm
    have hnone := doMatch_plus_none (c := .cls (ch 'w')) hne hu hd
    rw [doMatch_suffixItems hx hx'] at hnone
    cases hnone

/-- The title is the longest that a byte, letters and digits follow up to the end. -/
theorem matchHere_title_longest {m : Match} (h : matchHere titleItems v = some m) :
    ∃ t b x, v = t ++ b :: x ∧ t ≠ [] ∧ Plain t ∧ Plain x ∧ x ≠ [] ∧ m.captures = [t] ∧
      (isAlnum b = true → ∃ c, x = [c]) := by
  obtain ⟨⟨rest, caps⟩, hd, rfl⟩ := Option.map_eq_some_iff.mp h
  have hplus : doMatch (.single (.cls (ch 'w')) .plus :: suffixItems) ([] ++ [.unfinished v]) v =
      some (rest, caps) := hd
  obtain ⟨t, v, rfl, hne, ht, hd, hlong⟩ := doMatch_plus_greedy hplus
  rw [suffixItems, doMatch_endCapture] at hd
  obtain ⟨b, v, rfl, _, hd⟩ := doMatch_one_sound hd
  obtain ⟨x, v, rfl, hx', hx, hd⟩ := doMatch_plus_sound hd
  rw [doMatch] at hd
  split at hd
  · rename_i hv
    subst hv
    obtain ⟨rfl, rfl⟩ := Prod.mk.inj (Option.some.inj hd)
    rw [List.append_nil] at hlong ⊢
    refine ⟨t, b, x, rfl, hne, ht, hx, hx', rfl, fun hb => ?_⟩
    obtain ⟨c, y, rfl⟩ := List.exists_cons_of_ne_nil hx'
    by_cases hy : y = []
    · exact ⟨c, by rw [hy]⟩
    · have hnone := hlong [b] (c :: y) rfl (by simp) fun d hd => List.mem_singleton.mp hd ▸ hb
      have hsome := doMatch_suffixItems (u := t ++ [b]) (b := c)
        (fun d hd => hx d (List.mem_cons_of_mem _ hd)) hy []
      rw [List.append_assoc, List.singleton_append, hnone] at hsome
      cases hsome
  · cases hd

/-! ### Titles of files -/

/-- The word stands alone before the last byte that is no letter or digit, and something follows
that byte. -/
def EndsInWord (name t : Bytes) : Prop :=
  ∃ u b x, name = u ++ (t ++ b :: x) ∧ (∀ c ∈ u.getLast?, isAlnum c = false) ∧
    isAlnum b = false ∧ Plain x ∧ x ≠ []

/-- The word and two more bytes are the letters and digits at the end, and there are none before
the byte before them. -/
def EndsInRun (name t : Bytes) : Prop :=
  ∃ u b c, name = u ++ (t ++ [b, c]) ∧ (∀ d ∈ u.getLast?, isAlnum d = false) ∧
    (∀ d ∈ u.dropLast.getLast?, isAlnum d = false) ∧ Plain [b, c]

/-- No title begins where two bytes that are no letters or digits follow. -/
theorem matchHere_title_none (h : 2 ≤ v.countP fun b => !isAlnum b) :
    matchHere titleItems v = none := by
  cases hm : matchHere titleItems v with
  | none => rfl
  | some m =>
    obtain ⟨t, b, x, rfl, _, ht, hx, _⟩ := matchHere_title_longest hm
    have hzero : ∀ {y : Bytes}, Plain y → y.countP (fun b => !isAlnum b) = 0 := fun hy =>
      List.countP_eq_zero.mpr fun b hb => by simp [hy b hb]
    rw [List.countP_append, List.countP_cons, hzero ht, hzero hx] at h
    split at h
    · omega
    · omega

/-- No title begins at a byte that is no letter or digit. -/
theorem matchHere_title_head (hb : isAlnum b = false) : matchHere titleItems (b :: v) = none := by
  cases hm : matchHere titleItems (b :: v) with
  | none => rfl
  | some m =>
    obtain ⟨t, c, x, hsplit, hne, ht, _⟩ := matchHere_title_longest hm
    obtain ⟨d, t, rfl⟩ := List.exists_cons_of_ne_nil hne
    obtain ⟨rfl, _⟩ := List.cons.inj hsplit
    simp [ht b (List.mem_cons_self ..)] at hb

theorem one_le_countP (hne : v ≠ []) (h : ∀ c ∈ v.getLast?, isAlnum c = false) :
    1 ≤ v.countP fun b => !isAlnum b := by
  refine List.countP_pos_iff.mpr ⟨v.getLast hne, List.getLast_mem hne, ?_⟩
  simpa using h _ (List.getLast?_eq_some_getLast hne)

theorem getNameWithoutSuffix_of_match
    (hskip : ∀ x y, u = x ++ y → y ≠ [] → matchHere titleItems (y ++ v) = none)
    (hd : doMatch titleItems [] v = some ([], [.done t])) :
    getNameWithoutSuffix (u ++ v) = some t := by
  have hm : matchHere titleItems v = some ⟨v, [t], []⟩ := by
    rw [matchHere, hd]
    simp [pushCaptures]
  rw [getNameWithoutSuffix_eq, findFrom_skip hskip, findFrom_here hm]
  rfl

theorem EndsInWord.found (h : EndsInWord name t) (hne : t ≠ []) (ht : Plain t) :
    getNameWithoutSuffix name = some t := by
  obtain ⟨u, b, x, rfl, hu, hb, hx, hx'⟩ := h
  refine getNameWithoutSuffix_of_match ?_ ?_
  · rintro w y rfl hy
    rw [List.getLast?_append_of_ne_nil _ hy] at hu
    have hcount := one_le_countP hy hu
    refine matchHere_title_none ?_
    rw [List.countP_append, List.countP_append, List.countP_cons, hb]
    simp only [Bool.not_false, ↓reduceIte]
    omega
  · have hstop : ∀ c y, b :: x = c :: y → singleMatch c (.cls (ch 'w')) = false := by
      rintro c y hy
      obtain ⟨rfl, _⟩ := List.cons.inj hy
      exact hb
    have hend := doMatch_suffixItems (u := t) (b := b) hx hx' []
    exact doMatch_plus hne ht hstop hend

theorem EndsInRun.found (h : EndsInRun name t) (hne : t ≠ []) (ht : Plain t) :
    getNameWithoutSuffix name = some t := by
  obtain ⟨u, b, c, rfl, hu, hu', hbc⟩ := h
  refine getNameWithoutSuffix_of_match ?_ ?_
  · rintro w y rfl hy
    obtain ⟨z, d, hzd⟩ := (List.eq_nil_or_concat y).resolve_left hy
    rw [List.concat_eq_append] at hzd
    subst hzd
    rw [← List.append_assoc, List.getLast?_concat] at hu
    rw [← List.append_assoc, List.dropLast_concat] at hu'
    by_cases hz : z = []
    · subst hz
      exact matchHere_title_head (hu d rfl)
    · rw [List.getLast?_append_of_ne_nil _ hz] at hu'
      have hcount := one_le_countP hz hu'
      refine matchHere_title_none ?_
      rw [List.countP_append, List.countP_append, List.countP_singleton, hu d rfl]
      simp only [Bool.not_false, ↓reduceIte]
      omega
  · have hend := doMatch_suffixItems (u := t) (b := b)
      (fun d hd => hbc d (List.mem_cons_of_mem _ hd)) (List.cons_ne_nil c []) []
    refine doMatch_plus_last hne ht hend ?_
    intro w x hwx hw _
    have hlength := congrArg List.length hwx
    rw [List.length_append] at hlength
    have hw' := List.length_pos_iff.mpr hw
    refine doMatch_suffixItems_none ?_ _
    simp only [List.length_cons, List.length_nil] at hlength
    omega

/-- The title of a file name. -/
theorem getNameWithoutSuffix_some_iff :
    getNameWithoutSuffix name = some t ↔
      t ≠ [] ∧ Plain t ∧ (EndsInWord name t ∨ EndsInRun name t) := by
  constructor
  · intro h
    rw [getNameWithoutSuffix_eq] at h
    obtain ⟨⟨u, m⟩, hfind, hcap⟩ := Option.bind_eq_some_iff.mp h
    obtain ⟨v, rfl, hm, hfirst⟩ := findFrom_first hfind
    obtain ⟨t', b, x, rfl, hne, ht, hx, hx', hcaptures, hlong⟩ := matchHere_title_longest hm
    obtain rfl : t' = t := by simpa [hcaptures] using hcap
    refine ⟨hne, ht, ?_⟩
    -- an earlier letter or digit would begin an earlier match
    have hlast : ∀ c ∈ u.getLast?, isAlnum c = false := by
      intro c hc
      obtain ⟨w, rfl⟩ := List.getLast?_eq_some_iff.mp hc
      by_contra halnum
      rw [Bool.not_eq_false] at halnum
      have hcons : Plain (c :: t') := List.forall_mem_cons.mpr ⟨halnum, ht⟩
      have hsome := matchHere_title_isSome (b := b) (List.cons_ne_nil c t') hcons hx hx'
      have hnone := hfirst w [c] rfl (List.cons_ne_nil _ _)
      rw [List.singleton_append, ← List.cons_append] at hnone
      rw [hnone] at hsome
      cases hsome
    cases hb : isAlnum b with
    | false => exact .inl ⟨u, b, x, rfl, hlast, hb, hx, hx'⟩
    | true =>
      obtain ⟨c, rfl⟩ := hlong hb
      have hbc : Plain [b, c] := List.forall_mem_cons.mpr ⟨hb, hx⟩
      refine .inr ⟨u, b, c, rfl, hlast, ?_, hbc⟩
      intro d hd
      by_contra halnum
      rw [Bool.not_eq_false] at halnum
      rcases List.eq_nil_or_concat u with rfl | ⟨w, e, hu⟩
      · cases hd
      · rw [List.concat_eq_append] at hu
        subst hu
        rw [List.dropLast_concat] at hd
        obtain ⟨w, rfl⟩ := List.getLast?_eq_some_iff.mp hd
        have hword : Plain (t' ++ [b, c]) := List.forall_mem_append.mpr ⟨ht, hbc⟩
        have hsome := matchHere_title_isSome (b := e) (List.cons_ne_nil d [])
          (by simpa [Plain] using halnum) hword (by simp)
        have hnone := hfirst w [d, e] (by simp) (List.cons_ne_nil _ _)
        rw [List.singleton_append] at hsome
        rw [List.cons_append, List.singleton_append] at hnone
        rw [hnone] at hsome
        cases hsome
  · rintro ⟨hne, ht, h | h⟩
    · exact h.found hne ht
    · exact h.found hne ht

/-- Letters and digits, one byte, and letters and digits up to the end. -/
def Suffixed (name : Bytes) : Prop :=
  ∃ u t b x, name = u ++ (t ++ b :: x) ∧ t ≠ [] ∧ Plain t ∧ x ≠ [] ∧ Plain x

theorem getNameWithoutSuffix_none_iff : getNameWithoutSuffix name = none ↔ ¬ Suffixed name := by
  rw [getNameWithoutSuffix_eq]
  constructor
  · rintro h ⟨u, t, b, x, rfl, hne, ht, hx', hx⟩
    obtain ⟨⟨before, m⟩, hfind⟩ := Option.isSome_iff_exists.mp
      (findFrom_isSome.mpr ⟨u, t ++ b :: x, rfl, matchHere_title_isSome hne ht hx hx'⟩)
    obtain ⟨v, _, hm⟩ := findFrom_sound hfind
    obtain ⟨t', _, _, _, _, _, _, _, hcaptures, _⟩ := matchHere_title_longest hm
    simp [hfind, hcaptures] at h
  · intro h
    rw [Option.bind_eq_none_iff]
    rintro ⟨before, m⟩ hfind
    obtain ⟨v, rfl, hm⟩ := findFrom_sound hfind
    obtain ⟨t, b, x, rfl, hne, ht, hx, hx', _⟩ := matchHere_title_longest hm
    exact absurd ⟨before, t, b, x, rfl, hne, ht, hx', hx⟩ h

theorem lacksTitle_iff {file : FileEntry} : LacksTitle file ↔ ¬ Suffixed file.name :=
  getNameWithoutSuffix_none_iff

/-- The title that is listed for a file name. -/
def shownTitle (name : Bytes) : Option Bytes := (getNameWithoutSuffix name).filter isValidTitle

theorem shownTitle_iff :
    shownTitle name = some t ↔ IsWikiWord t ∧ (EndsInWord name t ∨ EndsInRun name t) := by
  rw [shownTitle, Option.filter_eq_some_iff, isValidTitle_iff, getNameWithoutSuffix_some_iff]
  constructor
  · rintro ⟨⟨_, _, hname⟩, ht⟩
    exact ⟨ht, hname⟩
  · rintro ⟨ht, hname⟩
    exact ⟨⟨ht.ne_nil, ht.alnum, hname⟩, ht⟩

theorem shownTitle_page (ht : IsWikiWord t) : shownTitle (t ++ serverConfig.suffix) = some t := by
  have hsuffix : serverConfig.suffix = ch '.' :: str "txt" := by decide
  have htxt : Plain (str "txt") := fun b hb => by revert b; decide
  refine shownTitle_iff.mpr ⟨ht, .inl ⟨[], ch '.', str "txt", by rw [hsuffix]; rfl, ?_, ?_⟩⟩
  · simp
  · exact ⟨by decide, htxt, by decide⟩

theorem listedTitle_run {file : FileEntry} (h : ¬ LacksTitle file) :
    listedTitle file s = (.ok (shownTitle file.name), s) := by
  cases hname : getNameWithoutSuffix file.name with
  | none => exact absurd hname h
  | some t =>
    rw [listedTitle, shownTitle, hname, Option.filter_some]
    rfl

/-! ### The index -/

theorem indexTitles_run (h : ∀ file ∈ files, ¬ LacksTitle file) :
    indexTitles files s = (.ok (files.filterMap fun file => shownTitle file.name), s) := by
  induction files with
  | nil => rfl
  | cons file files ih =>
    have hrest := ih fun f hf => h f (List.mem_cons_of_mem _ hf)
    rw [indexTitles, Run.bind_apply, listedTitle_run (h file (List.mem_cons_self ..))]
    simp only [Run.bind_apply, hrest, Run.pure_apply, List.filterMap_cons]
    cases shownTitle file.name with
    | none => rfl
    | some t => rfl

/-- The titles the index shows, in their order. -/
def shownIndex (s : State) : Except LuaError (List Bytes) :=
  (indexTitles (pageFiles s.disk) s).1.map sortTitles

/-- The titles are the WikiWords of which the file is listed, in order and each once. -/
def IndexExact (s : State) : Prop :=
  ∃ titles, shownIndex s = .ok titles ∧ titles.Pairwise (· < ·) ∧
    ∀ t, t ∈ titles ↔ IsWikiWord t ∧ ∃ file ∈ pageFiles s.disk, file.name = t ++ serverConfig.suffix

/-- Every listed name has a suffix; one that ends in a WikiWord and the suffix is the name of the
page file; no page file is listed twice. -/
def PagesOnly (files : List FileEntry) : Prop :=
  (∀ file ∈ files, Suffixed file.name) ∧
  (∀ file ∈ files, ∀ t, IsWikiWord t → EndsInWord file.name t ∨ EndsInRun file.name t →
    file.name = t ++ serverConfig.suffix) ∧
  files.Pairwise fun file file' => ∀ t, IsWikiWord t → file.name = t ++ serverConfig.suffix →
    file'.name ≠ t ++ serverConfig.suffix

/-- Each title comes from one file. -/
theorem nodup_shownTitle (h : PagesOnly files) :
    (files.filterMap fun file => shownTitle file.name).Nodup := by
  obtain ⟨_, hpages, honce⟩ := h
  rw [List.Nodup, List.pairwise_filterMap]
  refine honce.imp_of_mem fun {f f'} hf hf' hnot t ht t' ht' => ?_
  rintro rfl
  obtain ⟨hword, hname⟩ := shownTitle_iff.mp ht
  obtain ⟨_, hname'⟩ := shownTitle_iff.mp ht'
  exact hnot t hword (hpages f hf t hword hname) (hpages f' hf' t hword hname')

theorem perm_sortTitles (pages : List Bytes) : (sortTitles pages).Perm pages :=
  List.perm_insertionSort _ pages

theorem pairwise_sortTitles {pages : List Bytes} (h : pages.Nodup) :
    (sortTitles pages).Pairwise (· < ·) := by
  have htotal : Std.Total fun a b : Bytes => a ≤ b := ⟨List.le_total⟩
  have htrans : IsTrans Bytes fun a b => a ≤ b := ⟨fun _ _ _ h h' => List.le_trans h h'⟩
  have hle : (sortTitles pages).Pairwise (· ≤ ·) := List.pairwise_insertionSort _ pages
  have hne : (sortTitles pages).Pairwise (· ≠ ·) := (perm_sortTitles pages).nodup_iff.mpr h
  refine hle.imp₂ (fun a b hab hab' => ?_) hne
  exact (List.le_iff_lt_or_eq.mp hab).resolve_right hab'

theorem nodup_of_sorted {pages : List Bytes} (h : pages.Pairwise (· < ·)) : pages.Nodup := by
  refine h.imp ?_
  rintro t u hlt rfl
  exact List.lt_irrefl t hlt

theorem shownIndex_run (h : ∀ file ∈ pageFiles s.disk, Suffixed file.name) :
    shownIndex s =
      .ok (sortTitles ((pageFiles s.disk).filterMap fun file => shownTitle file.name)) := by
  rw [shownIndex, indexTitles_run fun file hf hlacks => lacksTitle_iff.mp hlacks (h file hf)]
  rfl

theorem suffixed_of_shownIndex {titles : List Bytes} (h : shownIndex s = .ok titles) :
    ∀ file ∈ pageFiles s.disk, Suffixed file.name := by
  intro file hf
  by_contra hnot
  obtain ⟨e, he⟩ := (raises_indexTitles (s := s)).mpr ⟨file, hf, lacksTitle_iff.mpr hnot⟩
  rw [shownIndex, he] at h
  cases h

theorem indexExact_iff : IndexExact s ↔ PagesOnly (pageFiles s.disk) := by
  constructor
  · rintro ⟨titles, hshown, hsorted, hmem⟩
    have hsuffixed := suffixed_of_shownIndex hshown
    rw [shownIndex_run hsuffixed] at hshown
    obtain rfl := Except.ok.inj hshown
    have hnodup := (perm_sortTitles _).nodup_iff.mp (nodup_of_sorted hsorted)
    rw [List.Nodup, List.pairwise_filterMap] at hnodup
    refine ⟨hsuffixed, ?_, ?_⟩
    · intro file hf t ht hname
      have hshows := shownTitle_iff.mpr ⟨ht, hname⟩
      have htitle : t ∈ (pageFiles s.disk).filterMap fun file => shownTitle file.name :=
        List.mem_filterMap.mpr ⟨file, hf, hshows⟩
      obtain ⟨_, file', hf', hpage⟩ := (hmem t).mp ((perm_sortTitles _).mem_iff.mpr htitle)
      by_contra hother
      have hne : file ≠ file' := by
        rintro rfl
        exact hother hpage
      -- two files would show one title
      have hsymm : Std.Symm fun f f' : FileEntry => ∀ u, shownTitle f.name = some u →
          ∀ u', shownTitle f'.name = some u' → u ≠ u' :=
        ⟨fun f f' h u hu u' hu' => (h u' hu' u hu).symm⟩
      exact hnodup.forall hf hf' hne t hshows t (hpage ▸ shownTitle_page ht) rfl
    · refine hnodup.imp fun {f f'} hnot t ht hpage hpage' => ?_
      exact hnot t (hpage ▸ shownTitle_page ht) t (hpage' ▸ shownTitle_page ht) rfl
  · intro h
    refine ⟨_, shownIndex_run h.1, pairwise_sortTitles (nodup_shownTitle h), fun t => ?_⟩
    rw [(perm_sortTitles _).mem_iff, List.mem_filterMap]
    constructor
    · rintro ⟨file, hf, hshows⟩
      obtain ⟨ht, hname⟩ := shownTitle_iff.mp hshows
      exact ⟨ht, file, hf, h.2.1 file hf t ht hname⟩
    · rintro ⟨ht, file, hf, hpage⟩
      exact ⟨file, hf, hpage ▸ shownTitle_page ht⟩

/-- The page with these titles. -/
def indexPageHtml (s : State) (titles : List Bytes) : Bytes :=
  createHtmlPage (str "Index page") (specialIndexPageTemplate (formatterEnv s.formatter s.disk)
    titles { s.formatterState with probed := [] }).1

theorem createSpecialIndexPage_shown :
    (createSpecialIndexPage s).1 = (shownIndex s).map fun titles =>
      some (indexPageHtml s titles) := by
  rw [createSpecialIndexPage, Run.bind_apply, Run.get_apply, shownIndex]
  simp only [Run.bind_apply]
  by_cases h : ∃ file ∈ pageFiles s.disk, LacksTitle file
  · obtain ⟨e, he⟩ := raises_indexTitles.mpr h
    rcases hrun : indexTitles (pageFiles s.disk) s with ⟨result, s'⟩
    obtain rfl : result = .error e := by rw [hrun] at he; exact he
    rfl
  · rw [indexTitles_run fun file hf hlacks => h ⟨file, hf, hlacks⟩]
    rfl

/-- The index is exact when the listing holds page files only, and other files that end in no
WikiWord before their suffix. -/
theorem indexPage_exact_iff (s : State) :
    (createSpecialIndexPage s).1 = (shownIndex s).map (fun titles =>
      some (indexPageHtml s titles)) ∧
    (IndexExact s ↔ PagesOnly (pageFiles s.disk)) :=
  ⟨createSpecialIndexPage_shown, indexExact_iff⟩

/-- A disk with these names in its listing. -/
def Disk.ofListing (files : List FileEntry) : Disk := { Disk.empty with listing := fun _ => files }

/-- A page is shown that does not exist: its title stands after the dash of another name. -/
theorem indexPage_dashed :
    ¬ IndexExact { State.fresh with disk := .ofListing [⟨[], str "a-FooBar.txt"⟩] } := by
  rintro ⟨titles, hshown, _, hmem⟩
  have hshows : shownIndex { State.fresh with disk := .ofListing [⟨[], str "a-FooBar.txt"⟩] } =
      .ok [str "FooBar"] := by decide
  obtain rfl := Except.ok.inj (hshows.symm.trans hshown)
  obtain ⟨_, file, hf, hname⟩ := (hmem (str "FooBar")).mp (by decide)
  obtain rfl := List.mem_singleton.mp hf
  revert hname
  decide

/-! ### The recent changes -/

/-- The loop over the sorted files with its limit as a parameter. -/
def recentTitlesUpTo (limit : Nat) : Nat → List FileEntry → Action (List (Bytes × Bytes))
  | _, [] => return []
  | i, file :: files => do
    let pageTitle ← listedTitle file
    let entries := pageTitle.toList.map fun t => (file.date, t)
    if i = limit then return entries
    else return entries ++ (← recentTitlesUpTo limit (i + 1) files)

theorem recentTitles_eq (i : Nat) (files : List FileEntry) :
    recentTitles i files = recentTitlesUpTo serverConfig.recentChangesListSize i files := by
  induction files generalizing i with
  | nil => rfl
  | cons file files ih => rw [recentTitles, recentTitlesUpTo, ih]

/-- The loop without a stop. -/
def listedEntries : List FileEntry → Action (List (Bytes × Bytes))
  | [] => return []
  | file :: files => do
    let pageTitle ← listedTitle file
    return (pageTitle.toList.map fun t => (file.date, t)) ++ (← listedEntries files)

/-- The files that the loop looks at. They are counted from one, so nothing stops it at zero. -/
def lookedAt (limit : Nat) (files : List FileEntry) : List FileEntry :=
  if limit = 0 then files else files.take limit

theorem recentTitlesUpTo_past {limit i : Nat} (hi : limit < i) (files : List FileEntry) :
    recentTitlesUpTo limit i files = listedEntries files := by
  induction files generalizing i with
  | nil => rfl
  | cons file files ih =>
    rw [recentTitlesUpTo, listedEntries, ih (by omega)]
    simp only [Nat.ne_of_gt hi, ↓reduceIte]

theorem recentTitlesUpTo_take {limit n i : Nat} (hi : i + n = limit) (files : List FileEntry) :
    recentTitlesUpTo limit i files = listedEntries (files.take (n + 1)) := by
  induction files generalizing i n with
  | nil => rfl
  | cons file files ih =>
    rw [recentTitlesUpTo, List.take_succ_cons, listedEntries]
    cases n with
    | zero =>
      have hlast : i = limit := hi
      funext s
      simp only [hlast, ↓reduceIte, List.take_zero, listedEntries, Run.bind_apply, Run.pure_apply,
        List.append_nil]
    | succ n =>
      have hnot : i ≠ limit := by omega
      simp only [hnot, ↓reduceIte, ih (show i + 1 + n = limit by omega)]

theorem recentTitlesUpTo_lookedAt (limit : Nat) (files : List FileEntry) :
    recentTitlesUpTo limit 1 files = listedEntries (lookedAt limit files) := by
  rw [lookedAt]
  cases limit with
  | zero => exact recentTitlesUpTo_past (by omega) files
  | succ n => exact recentTitlesUpTo_take (Nat.add_comm 1 n) files

/-- The entry of a listed file. -/
def recentEntry (file : FileEntry) : Option (Bytes × Bytes) :=
  (shownTitle file.name).map fun t => (file.date, t)

theorem listedEntries_run (h : ∀ file ∈ files, ¬ LacksTitle file) :
    listedEntries files s = (.ok (files.filterMap recentEntry), s) := by
  induction files with
  | nil => rfl
  | cons file files ih =>
    have hrest := ih fun f hf => h f (List.mem_cons_of_mem _ hf)
    rw [listedEntries, Run.bind_apply, listedTitle_run (h file (List.mem_cons_self ..))]
    simp only [Run.bind_apply, hrest, Run.pure_apply, List.filterMap_cons, recentEntry]
    cases shownTitle file.name with
    | none => rfl
    | some t => rfl

theorem listedEntries_error (h : ∃ file ∈ files, LacksTitle file) :
    listedEntries files s = (.error .badArgument, s) := by
  induction files with
  | nil => simp at h
  | cons file files ih =>
    rw [listedEntries, Run.bind_apply]
    by_cases hfile : LacksTitle file
    · have herror : listedTitle file s = (.error .badArgument, s) := by
        rw [LacksTitle] at hfile
        rw [listedTitle, hfile]
        rfl
      rw [herror]
    · rw [List.exists_mem_cons_iff, or_iff_right hfile] at h
      rw [listedTitle_run hfile]
      simp only [Run.bind_apply, ih h]

/-- The entries that are shown with this limit, in their order. -/
def shownRecent (limit : Nat) (s : State) : Except LuaError (List (Bytes × Bytes)) :=
  (recentTitlesUpTo limit 1 (s.sortByDate.run (pageFiles s.disk)) s).1

/-- The page with these entries. -/
def recentChangesHtml (s : State) (entries : List (Bytes × Bytes)) : Bytes :=
  createHtmlPage (str "Recent changes") (specialRecentChangesTemplate
    (formatterEnv s.formatter s.disk) entries { s.formatterState with probed := [] }).1

theorem createSpecialRecentChanges_shown :
    (createSpecialRecentChanges s).1 = (shownRecent serverConfig.recentChangesListSize s).map
      fun entries => some (recentChangesHtml s entries) := by
  rw [createSpecialRecentChanges, Run.bind_apply, Run.get_apply, shownRecent]
  simp only [Run.bind_apply, recentTitles_eq, recentTitlesUpTo_lookedAt]
  by_cases h : ∃ file ∈ lookedAt serverConfig.recentChangesListSize
      (s.sortByDate.run (pageFiles s.disk)), LacksTitle file
  · rw [listedEntries_error h]
    rfl
  · rw [listedEntries_run fun file hf hlacks => h ⟨file, hf, hlacks⟩]
    rfl

/-- The list has as many pages as the limit allows, latest first, and no page that is left out is
newer than one of them. -/
def RecentExact (limit : Nat) (s : State) : Prop :=
  ∃ entries rest, shownRecent limit s = .ok entries ∧
    ((pageFiles s.disk).filterMap recentEntry).Perm (entries ++ rest) ∧
    entries.length = min limit ((pageFiles s.disk).filterMap recentEntry).length ∧
    entries.Pairwise (fun e e' => e'.1 ≤ e.1) ∧ ∀ e ∈ entries, ∀ e' ∈ rest, e'.1 ≤ e.1

/-- The name of a page file, or one that is listed like that. -/
def ListedAsPage (name : Bytes) : Prop := ∃ t, IsWikiWord t ∧ (EndsInWord name t ∨ EndsInRun name t)

/-- The sorted files give as many pages as the limit allows: the first ones are all pages, or there
are no pages after them. -/
def LimitMet (limit : Nat) (files : List FileEntry) : Prop :=
  (∀ file ∈ lookedAt limit files, Suffixed file.name) ∧
    (limit ≠ 0 ∧ (∀ file ∈ files.take limit, ListedAsPage file.name) ∨
      ∀ file ∈ files.drop limit, ¬ ListedAsPage file.name)

theorem recentEntry_isSome {file : FileEntry} :
    (recentEntry file).isSome ↔ ListedAsPage file.name := by
  rw [recentEntry, Option.isSome_map, Option.isSome_iff_exists]
  exact exists_congr fun t => shownTitle_iff

theorem length_lookedAt (limit : Nat) (files : List FileEntry) :
    ((lookedAt limit files).filterMap recentEntry).length =
        min limit (files.filterMap recentEntry).length ↔
      limit ≠ 0 ∧ (∀ file ∈ files.take limit, ListedAsPage file.name) ∨
        ∀ file ∈ files.drop limit, ¬ ListedAsPage file.name := by
  have hsome := List.filterMap_length_eq_length (f := recentEntry) (l := files.take limit)
  have hnone : ((files.drop limit).filterMap recentEntry).length = 0 ↔
      ∀ file ∈ files.drop limit, ¬ ListedAsPage file.name := by
    rw [List.length_eq_zero_iff, List.filterMap_eq_nil_iff]
    simp only [← recentEntry_isSome, Option.not_isSome_iff_eq_none]
  simp only [recentEntry_isSome] at hsome
  rw [← hsome, ← hnone]
  cases limit with
  | zero => simp [lookedAt]
  | succ n =>
    have hsplit := congrArg List.length (congrArg (List.filterMap recentEntry)
      (List.take_append_drop (n + 1) files))
    have htake := List.length_filterMap_le recentEntry (files.take (n + 1))
    have hdrop := List.length_filterMap_le recentEntry (files.drop (n + 1))
    rw [List.filterMap_append, List.length_append] at hsplit
    rw [List.length_take] at htake ⊢
    rw [List.length_drop] at hdrop
    rw [lookedAt, if_neg (Nat.succ_ne_zero n)]
    omega

theorem lookedAt_split (limit : Nat) (files : List FileEntry) :
    ∃ rest, files = lookedAt limit files ++ rest := by
  rw [lookedAt]
  split
  · exact ⟨[], by simp⟩
  · exact ⟨files.drop limit, (List.take_append_drop limit files).symm⟩

theorem pairwise_recentEntry (h : files.Pairwise fun file file' => file'.date ≤ file.date) :
    (files.filterMap recentEntry).Pairwise fun e e' => e'.1 ≤ e.1 := by
  refine h.filterMap recentEntry fun file file' hle e he e' he' => ?_
  obtain ⟨t, _, rfl⟩ := Option.map_eq_some_iff.mp he
  obtain ⟨t', _, rfl⟩ := Option.map_eq_some_iff.mp he'
  exact hle

theorem recentExact_iff {limit : Nat} :
    RecentExact limit s ↔ LimitMet limit (s.sortByDate.run (pageFiles s.disk)) := by
  have hperm := (s.sortByDate.perm (pageFiles s.disk)).filterMap recentEntry
  have hsorted := pairwise_recentEntry (s.sortByDate.sorted (pageFiles s.disk))
  rw [RecentExact, LimitMet, ← length_lookedAt, hperm.length_eq.symm, shownRecent,
    recentTitlesUpTo_lookedAt]
  generalize s.sortByDate.run (pageFiles s.disk) = sorted at *
  constructor
  · rintro ⟨entries, rest, hshown, _, hlength, _⟩
    by_cases hlacks : ∃ file ∈ lookedAt limit sorted, LacksTitle file
    · rw [listedEntries_error hlacks] at hshown
      cases hshown
    · rw [not_exists] at hlacks
      have hrun := listedEntries_run (s := s) fun file hf h => hlacks file ⟨hf, h⟩
      rw [hrun] at hshown
      obtain rfl := Except.ok.inj hshown
      refine ⟨fun file hf => ?_, hlength⟩
      by_contra hnot
      exact hlacks file ⟨hf, lacksTitle_iff.mpr hnot⟩
  · rintro ⟨hsuffixed, hlength⟩
    obtain ⟨rest, hsplit⟩ := lookedAt_split limit sorted
    have hentries := congrArg (List.filterMap recentEntry) hsplit
    rw [List.filterMap_append] at hentries
    rw [hentries, List.pairwise_append] at hsorted
    refine ⟨_, rest.filterMap recentEntry, ?_, ?_, hlength, hsorted.1, hsorted.2.2⟩
    · rw [listedEntries_run fun file hf h => lacksTitle_iff.mp h (hsuffixed file hf)]
    · rw [← hentries]
      exact hperm.symm

/-- The recent changes are exact, whatever the limit is, when the files that are looked at have a
suffix and the first ones are pages, or no pages come after them. -/
theorem recentChanges_exact_iff (limit : Nat) (s : State) :
    (createSpecialRecentChanges s).1 = (shownRecent serverConfig.recentChangesListSize s).map
      (fun entries => some (recentChangesHtml s entries)) ∧
    (RecentExact limit s ↔ LimitMet limit (s.sortByDate.run (pageFiles s.disk))) :=
  ⟨createSpecialRecentChanges_shown, recentExact_iff⟩

/-- A file that is no page, and an older one that is. -/
def crowdedState : State :=
  { State.fresh with
    disk := .ofListing [⟨str "2005-03-01  10:00", str "notes.txt"⟩,
      ⟨str "2005-02-01  10:00", str "FooBar.txt"⟩] }

/-- The newer file takes the place of the only page. -/
theorem recentChanges_crowded : ¬ RecentExact 1 crowdedState := by
  rintro ⟨entries, rest, hshown, _, hlength, _⟩
  have hnone : shownRecent 1 crowdedState = .ok [] := by decide
  obtain rfl := Except.ok.inj (hnone.symm.trans hshown)
  revert hlength
  decide

end MoonWiki
