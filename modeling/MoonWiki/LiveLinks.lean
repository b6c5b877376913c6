import MoonWiki.EditRoundTrip
import MoonWiki.LuaErrors
import MoonWiki.PageLinks
import MoonWiki.SaveThenGet

/-! Following the internal links of a page. -/
namespace MoonWiki
open Lua

/-! ### What a link asks for, and what it promises -/

/-- The part of a link that a browser requests. -/
def withoutFragment (href : Bytes) : Bytes := href.takeWhile (· ≠ ch '#')

/-- The page or the special page of this name is the answer. -/
def GetsPage (s : State) (title : Bytes) : Prop :=
  match specialPageCreator title with
  | some special => ∃ html, AnsweredWith s html ∧ Titled special.heading html
  | none => ∃ content, WikiStore.loadPage s.disk title = some content ∧
    AnsweredWith s (renderedPage s.disk title content)

/-- The form to edit the page of this name is the answer. -/
def GetsForm (s : State) (title : Bytes) : Prop :=
  AnsweredWith s (editPageHtml .wiki title ((WikiStore.loadPage s.disk title).getD []))

/-- The answer is what the link promises. -/
def LinkCall.Kept (call : LinkCall) (s : State) : Prop :=
  match call.target (formatterEnv .wiki s.disk) with
  | .special => GetsPage s call.topic
  | .existing t => GetsPage s t
  | .missing => GetsForm s call.topic

/-- Whoever follows the link gets what it promises. -/
def LinkCall.Live (call : LinkCall) (sortByDate : DateSort) (d : Disk) : Prop :=
  ∀ href, call.href (formatterEnv .wiki d) = some href →
    ∀ s, Asks s d (str "/" ++ withoutFragment href) → s.sortByDate = sortByDate → call.Kept s

/-- A title with an answer: a WikiWord, and if it is a special page one that needs no parameter
and raises no error. -/
def HasAnswer (sortByDate : DateSort) (d : Disk) (title : Bytes) : Prop :=
  IsWikiWord title ∧ ∀ special, specialPageCreator title = some special →
    special.isNil {} d = false ∧ ¬ special.Fails {} sortByDate d

/-- The condition for a link: the page it leads to has an answer, or the page to be written has a
valid title. -/
def LinkCall.Leads (call : LinkCall) (sortByDate : DateSort) (d : Disk) : Prop :=
  match call.target (formatterEnv .wiki d) with
  | .special => HasAnswer sortByDate d call.topic
  | .existing t => HasAnswer sortByDate d t
  | .missing => IsWikiWord call.topic

/-! ### The location of a link -/

section
variable {t x : Bytes}

theorem takeWhile_append_mark {p : Byte → Bool} {c : Byte} (ht : ∀ b ∈ t, p b = true)
    (hc : p c = false) (x : Bytes) : (t ++ c :: x).takeWhile p = t := by
  rw [List.takeWhile_append_of_pos ht, List.takeWhile_cons_of_neg (by simp [hc]), List.append_nil]

theorem formatS_alnum (ht : ∀ b ∈ t, isAlnum b) : formatS t = t := by
  have hzero : ∀ b ∈ t, b ≠ 0 := fun b hb => ne_of_test (ht b hb) (by decide)
  rw [formatS, cString_eq_self hzero, ite_self]

/-- The anchor is a fragment. -/
theorem withoutFragment_link (ht : ∀ b ∈ t, isAlnum b) (call : LinkCall) :
    withoutFragment (formatS (call.withAnchor t)) = t := by
  have hzero : ∀ b ∈ t, b ≠ 0 := fun b hb => ne_of_test (ht b hb) (by decide)
  have hmark : ∀ b ∈ t, decide (b ≠ ch '#') = true := fun b hb =>
    decide_eq_true (ne_of_test (ht b hb) (by decide))
  rw [LinkCall.withAnchor]
  cases call.anchor with
  | none =>
    rw [formatS_alnum ht, withoutFragment]
    exact List.takeWhile_eq_self_iff.mpr hmark
  | some a =>
    have hsharp : ∀ rest : Bytes, withoutFragment (t ++ (str "#" ++ rest)) = t := fun rest =>
      takeWhile_append_mark hmark (by decide) rest
    dsimp only
    rw [List.append_assoc, formatS]
    split_ifs
    · exact hsharp a
    · rw [cString_append hzero]
      exact hsharp (cString a)

theorem withoutFragment_formatS (x : Bytes) :
    ∃ q : Byte → Bool, q (ch '#') = false ∧ (∀ b, q b = false → b ∈ [ch '#', 0]) ∧
      withoutFragment (formatS x) = x.takeWhile q := by
  rw [formatS, withoutFragment]
  split_ifs
  · refine ⟨_, ?_, fun b hb => ?_, rfl⟩
    · decide
    · have h : b = ch '#' := by simpa using hb
      simp [h]
  · refine ⟨_, ?_, fun b hb => ?_, List.takeWhile_takeWhile ..⟩
    · decide
    · by_cases h : b = ch '#'
      · simp [h]
      · simpa [h] using hb

/-- The location names the page up to the first mark that ends a location. -/
theorem withoutFragment_names (call : LinkCall) (t : Bytes) :
    ∃ p, withoutFragment (formatS (call.withAnchor t)) = p ∧
      (t = p ∨ ∃ c y, t = p ++ c :: y ∧ c ∈ [ch '#', 0]) := by
  obtain ⟨q, hsharp, hq, heq⟩ := withoutFragment_formatS (call.withAnchor t)
  have hanchor : ∃ y, call.withAnchor t = t ++ y ∧ y.takeWhile q = [] := by
    rw [LinkCall.withAnchor]
    cases call.anchor with
    | none => exact ⟨[], by simp, rfl⟩
    | some a => exact ⟨ch '#' :: a, by simp; rfl, List.takeWhile_cons_of_neg (by simp [hsharp])⟩
  obtain ⟨y, hy, hnil⟩ := hanchor
  rw [heq, hy]
  cases hd : t.dropWhile q with
  | nil =>
    refine ⟨t, ?_, .inl rfl⟩
    have ht : ∀ b ∈ t, q b = true := List.dropWhile_eq_nil_iff.mp hd
    rw [List.takeWhile_append_of_pos ht, hnil, List.append_nil]
  | cons c z =>
    have ht : t = t.takeWhile q ++ c :: z := by rw [← hd, List.takeWhile_append_dropWhile]
    have hc : q c = false := by
      have hne : t.dropWhile q ≠ [] := by simp [hd]
      have hhead := List.head_dropWhile_not q hne
      simpa [hd] using hhead
    refine ⟨t.takeWhile q, ?_, .inr ⟨c, z, ht, hq c hc⟩⟩
    conv_lhs => rw [ht, List.append_assoc, List.cons_append]
    exact takeWhile_append_mark (fun b hb => List.mem_takeWhile_imp hb) hc _

end

/-! ### Pages and special pages -/

section
variable {α β : Type}

/-- The action leaves the response alone. -/
def KeepsResponse (x : Action α) : Prop := ∀ s, (x s).2.response = s.response

theorem KeepsResponse.bind {x : Action α} {f : α → Action β} (hx : KeepsResponse x)
    (hf : ∀ a, KeepsResponse (f a)) : KeepsResponse (x >>= f) := by
  intro s
  have hs := hx s
  rw [Run.bind_apply]
  rcases hrun : x s with ⟨e | a, s'⟩
  · rw [hrun] at hs
    exact hs
  · rw [hrun] at hs
    exact (hf a s').trans hs

theorem KeepsResponse.pure (a : α) : KeepsResponse (Pure.pure a : Action α) := fun _ => rfl

theorem keepsResponse_listedTitle (file : FileEntry) : KeepsResponse (listedTitle file) := by
  rw [listedTitle]
  cases getNameWithoutSuffix file.name with
  | none => exact fun _ => rfl
  | some t => exact .pure _

theorem keepsResponse_indexTitles (files : List FileEntry) :
    KeepsResponse (indexTitles files) := by
  induction files with
  | nil => exact .pure _
  | cons file files ih =>
    exact (keepsResponse_listedTitle file).bind fun _ => ih.bind fun _ => .pure _

theorem keepsResponse_recentTitles (i : Nat) (files : List FileEntry) :
    KeepsResponse (recentTitles i files) := by
  induction files generalizing i with
  | nil => exact .pure _
  | cons file files ih =>
    refine (keepsResponse_listedTitle file).bind fun _ => ?_
    dsimp only
    split_ifs
    · exact .pure _
    · exact (ih (i + 1)).bind fun _ => .pure _

end

/-- The special pages that can do without a parameter answer with the status they find. -/
theorem keepsResponse_processSpecialPage {special : SpecialPage} {d : Disk}
    (h : special.isNil {} d = false) : KeepsResponse (processSpecialPage special) := by
  have hget : KeepsResponse (Run.get : Action State) := fun _ => rfl
  have hformat : ∀ f : FormatterEnv → FormatterState → Bytes × FormatterState,
      KeepsResponse (withFormatter f) := fun _ _ => rfl
  cases special with
  | editPage => cases h
  | indexPage =>
    exact hget.bind fun _ => (keepsResponse_indexTitles _).bind fun _ =>
      (hformat _).bind fun _ => .pure _
  | recentChanges =>
    exact hget.bind fun _ => (keepsResponse_recentTitles _ _).bind fun _ =>
      (hformat _).bind fun _ => .pure _
  | searchPage => exact hget.bind fun _ => .pure _
  | reverseLink => cases h

section
variable {s s' : State} {d : Disk} {t html content : Bytes} {special : SpecialPage}

theorem isNil_of_empty (hparameters : s.request.parameters = .empty) :
    special.isNil s.request d = special.isNil {} d := by
  cases special <;> simp only [SpecialPage.isNil, hparameters]

theorem fails_of_empty {sortByDate : DateSort} (hparameters : s.request.parameters = .empty) :
    special.Fails s.request sortByDate d ↔ special.Fails {} sortByDate d := by
  cases special with
  | reverseLink => simp only [SpecialPage.Fails, isNil_of_empty hparameters]
  | _ => exact Iff.rfl

/-- A special page asked for by its name is the answer exactly when it needs no parameter and
raises no error. -/
theorem special_answered_iff (hasks : Asks s d (str "/" ++ t))
    (hs : specialPageCreator t = some special) :
    (∃ html, AnsweredWith s html ∧ Titled special.heading html) ↔
      special.isNil {} d = false ∧ ¬ special.Fails {} s.sortByDate d := by
  have hv := isValidTitle_of_special hs
  have ht := isValidTitle_iff.mp hv
  obtain ⟨htitle, _⟩ := asks_title hasks ht
  have hplain : ch '?' ∉ str "/" ++ t := by
    intro hq
    rcases List.mem_append.mp hq with hq | hq
    · exact absurd hq (by decide)
    · exact absurd (ht.alnum _ hq) (by decide)
  have hparameters : s.request.parameters = .empty := by
    rw [hasks.parameters, parseParameters_plain hplain]
  have hpage : wikiPage s = processSpecialPage special s.viewed :=
    wikiPage_special (by rw [htitle]; exact hv) (by rw [htitle]; exact hs)
  have hfails := raises_processSpecialPage special s.viewed
  have hnil := processSpecialPage_nil_iff special s.viewed
  rw [viewed_request, viewed_disk, hasks.disk, isNil_of_empty hparameters] at hnil
  rw [viewed_request, viewed_disk, hasks.disk, fails_of_empty hparameters] at hfails
  constructor
  · rintro ⟨html, ⟨hanswer, _⟩, _⟩
    rw [hpage] at hanswer
    refine ⟨?_, fun h => ?_⟩
    · by_contra hne
      rw [hnil.mpr (by simpa using hne)] at hanswer
      cases hanswer
    · obtain ⟨e, he⟩ := hfails.mpr h
      rw [he] at hanswer
      cases hanswer
  · rintro ⟨hnot, hno⟩
    rcases hrun : processSpecialPage special s.viewed with ⟨e | page, s'⟩
    · exact (hno (hfails.mp (raises_error hrun))).elim
    · cases page with
      | none =>
        have hnil' := hnil.mp (by rw [hrun])
        rw [hnot] at hnil'
        cases hnil'
      | some html =>
        have hresponse := keepsResponse_processSpecialPage hnot s.viewed
        rw [hrun] at hresponse
        refine ⟨html, handleGetRequest_answered (hpage.trans hrun) ?_, ?_⟩
        · rw [hresponse]
          exact hasks.status
        · exact processSpecialPage_titled special s.viewed html (by rw [hrun])

theorem NamesUpTo.extend {url p : Bytes} (h : NamesUpTo url p) {c : Byte} (y : Bytes)
    (hc : c ∈ [ch '#', 0]) : NamesUpTo url (p ++ c :: y) := by
  obtain ⟨q, hurl, rfl | ⟨c', x, rfl, hc'⟩⟩ := h
  · exact ⟨p, hurl, .inr ⟨c, y, rfl, List.mem_cons_of_mem _ hc⟩⟩
  · exact ⟨q, hurl, .inr ⟨c', x ++ c :: y, by simp, hc'⟩⟩

/-- A link to an existing page gets it exactly when its name has an answer. -/
theorem getsPage_iff (call : LinkCall)
    (hasks : Asks s d (str "/" ++ withoutFragment (formatS (call.withAnchor t))))
    (hexists : specialPageCreator t = none → WikiStore.topicExists d t = true) :
    GetsPage s t ↔ HasAnswer s.sortByDate d t := by
  rw [GetsPage, HasAnswer]
  cases hs : specialPageCreator t with
  | some special =>
    have ht := isValidTitle_iff.mp (isValidTitle_of_special hs)
    rw [withoutFragment_link ht.alnum call] at hasks
    simpa [ht] using special_answered_iff hasks hs
  | none =>
    simp only [reduceCtorEq, false_implies, implies_true, and_true]
    constructor
    · rintro ⟨content, _, hanswer, _⟩
      obtain ⟨p, hp, htitle⟩ := withoutFragment_names call t
      have hnames : NamesUpTo s.request.url t := by
        rw [hasks.url, hp]
        rcases htitle with rfl | ⟨c, y, rfl, hc⟩
        · exact namesUpTo_stripQuery t
        · exact (namesUpTo_stripQuery p).extend y hc
      exact isValidTitle_iff.mp (title_of_named hnames hanswer (titled_htk _ _)).1
    · intro ht
      rw [withoutFragment_link ht.alnum call] at hasks
      obtain ⟨content, hcontent⟩ := Option.isSome_iff_exists.mp (hexists hs)
      obtain ⟨s', hstored, hstatus⟩ := wikiPage_stored hasks ht hs hcontent
      exact ⟨content, hasks.disk ▸ hcontent, hasks.disk ▸ handleGetRequest_answered hstored hstatus⟩

end

/-! ### The tags of an edit form -/

/-- The number of tags a text opens or closes. -/
def tags (x : Bytes) : Nat := x.count (ch '<')

theorem tags_append (x y : Bytes) : tags (x ++ y) = tags x + tags y := List.count_append ..

theorem tags_eq_zero {x : Bytes} (h : ch '<' ∉ x) : tags x = 0 := List.count_eq_zero.mpr h

/-- The tags of an element, without those of its attributes and its content. -/
def elementTags (field : String) (empty : Bool) : Nat :=
  tags (str "<" ++ str field ++ str ">") +
    if empty ∧ field ∈ emptyTags then 0 else tags (str "</" ++ str field ++ str ">")

theorem tags_htk (field : String) (attrs : List (String × Bytes)) (contain : List Bytes) :
    tags (htk field attrs contain) = elementTags field contain.isEmpty +
      (attrs.map fun a => tags (attr a.1 a.2)).sum + (contain.map tags).sum := by
  have hattrs : tags (attrs.flatMap fun a => attr a.1 a.2) =
      (attrs.map fun a => tags (attr a.1 a.2)).sum := by
    simp [tags, List.count_flatMap, Function.comp_def]
  have hcontain : tags contain.flatten = (contain.map tags).sum := List.count_flatten ..
  have hend : (contain ≠ [] ∨ field ∉ emptyTags) ↔
      ¬ (contain.isEmpty = true ∧ field ∈ emptyTags) := by
    rw [List.isEmpty_iff]
    tauto
  simp only [htk_eq, elementTags, tags_append, hattrs, hcontain, hend]
  split_ifs <;> simp [tags] <;> omega

theorem tags_attr (name : String) (v : Bytes) :
    tags (attr name v) = tags (str " ") + tags (formatS (str name)) + tags (str "=\"") +
      tags (formatS v) + tags (str "\"") := by
  simp only [attr, tags_append]

/-- A name with tags adds them to the form. -/
theorem tags_editPageHtml_le {cls : FormatterClass} {t t' : Bytes} {content : Bytes}
    (content' : Bytes) (hcls : cls ≠ .exporting) (ht : ∀ b ∈ t, isAlnum b) :
    tags (editPageHtml cls t content) + tags t' ≤ tags (editPageHtml .wiki t' content') := by
  have hlt : ch '<' ∉ t := fun h => absurd (ht _ h) (by decide)
  have hname : tags t = 0 := tags_eq_zero hlt
  have hvalue : tags (formatS t) = 0 := by rw [formatS_alnum ht, hname]
  have hcontent : tags (escapeHtml content) = 0 := tags_eq_zero (lt_not_mem_escapeHtml content)
  have hblank : tags (str " ") = 0 := by decide
  have hreverse : tags (formatS (str "ReverseLink?page=" ++ t)) = 0 := by
    have hconst : ∀ b ∈ str "ReverseLink?page=", b ≠ 0 := by decide
    have hzero : ∀ b ∈ str "ReverseLink?page=" ++ t, b ≠ 0 := by
      intro b hb
      rcases List.mem_append.mp hb with hb | hb
      · exact hconst b hb
      · exact ne_of_test (ht b hb) (by decide)
    have hprefix : tags (str "ReverseLink?page=") = 0 := by decide
    rw [formatS, cString_eq_self hzero, ite_self, tags_append, hprefix, hname]
  cases cls with
  | exporting => exact (hcls rfl).elim
  | wiki =>
    simp only [editPageHtml, pageHeaderTable, pageHeaderTemplate, reversePageLink,
      createHtmlHeader, textArea, existentPageLink, tags_htk, tags_append, tags_attr,
      List.map_cons, List.map_nil, List.sum_cons, List.sum_nil, List.isEmpty_cons,
      List.isEmpty_nil, hname, hvalue, hcontent, hreverse, Bool.false_eq_true, ↓reduceIte]
    omega
  | printable =>
    simp only [editPageHtml, pageHeaderTable, pageHeaderTemplate, reversePageLink,
      createHtmlHeader, textArea, existentPageLink, tags_htk, tags_append, tags_attr,
      List.map_cons, List.map_nil, List.sum_cons, List.sum_nil, List.isEmpty_cons,
      List.isEmpty_nil, hname, hvalue, hcontent, hblank, Bool.false_eq_true, ↓reduceIte]
    omega

/-! ### The form to write a page -/

section
variable {s : State} {d : Disk} {t : Bytes}

theorem editPageHtml_titled (cls : FormatterClass) (t content : Bytes) :
    Titled (str "Edit " ++ t ++ str "<") (editPageHtml cls t content) := titled_htk _ _

/-- Two edit forms with the same text are for the same page, if one of them has a name without
marks. -/
theorem editPageHtml_injective {cls : FormatterClass} {t t' content content' : Bytes}
    (hcls : cls ≠ .exporting) (ht : ∀ b ∈ t, isAlnum b)
    (h : editPageHtml cls t content = editPageHtml .wiki t' content') : t = t' := by
  have hlt : ch '<' ∉ t := fun hb => absurd (ht _ hb) (by decide)
  have htags : tags (editPageHtml cls t content) + tags t' ≤
      tags (editPageHtml .wiki t' content') := tags_editPageHtml_le content' hcls ht
  rw [h] at htags
  have hlt' : ch '<' ∉ t' := List.count_eq_zero.mp (by simpa [tags] using htags)
  have hone : ∀ {x y : Bytes}, ch '<' ∉ y → str "Edit " ++ x ++ str "<" <+: str "Edit " ++ y ++
      str "<" → x = y := by
    intro x y hy hp
    rw [List.append_assoc, List.append_assoc, List.prefix_append_right_inj] at hp
    rcases List.prefix_concat_iff.mp hp with heq | hp
    · exact List.append_cancel_right heq
    · exact absurd (hp.subset (show ch '<' ∈ x ++ str "<" by simp; exact .inr (by decide))) hy
  have hhead := editPageHtml_titled cls t content
  rw [h] at hhead
  rcases hhead.compare (editPageHtml_titled .wiki t' content') with hp | hp
  · exact hone hlt' hp
  · exact (hone hlt hp).symm

theorem urlencode_alnum (ht : ∀ b ∈ t, isAlnum b) : urlencode t = t := by
  have hbyte : ∀ b ∈ t, encodeByte b = [b] := by
    intro b hb
    have hspace : b ≠ ch ' ' := ne_of_test (ht b hb) (by decide)
    simp [encodeByte, hspace, ht b hb]
  exact (List.flatMap_congr hbyte).trans (List.flatMap_singleton' t)

/-- The location of a link to write a page. -/
theorem withoutFragment_edit (t : Bytes) :
    ∃ w, str "/" ++ withoutFragment (formatS (str "EditPage?page=" ++ t)) =
      str "/EditPage" ++ ch '?' :: (str "page=" ++ w) ∧ ((∀ b ∈ t, isAlnum b) → w = t) := by
  obtain ⟨q, _, hq, heq⟩ := withoutFragment_formatS (str "EditPage?page=" ++ t)
  have hplain : ∀ b, b ∉ [ch '#', 0] → q b = true := by
    intro b hb
    by_contra h
    exact hb (hq b (by simpa using h))
  have hmarks : ∀ b ∈ str "EditPage?page=", b ∉ [ch '#', 0] := by decide
  have hconst : str "/" ++ str "EditPage?page=" = str "/EditPage" ++ ch '?' :: str "page=" := by
    decide
  refine ⟨t.takeWhile q, ?_, fun ht => ?_⟩
  · rw [heq, List.takeWhile_append_of_pos fun b hb => hplain b (hmarks b hb), ← List.append_assoc,
      hconst, List.append_assoc, List.cons_append]
  · refine List.takeWhile_eq_self_iff.mpr fun b hb => hplain b ?_
    have hb' := ht b hb
    intro hmark
    have hno : ∀ c ∈ [ch '#', 0], isAlnum c = false := by decide
    rw [hno b hmark] at hb'
    cases hb'

/-- A link to write a page gets its form exactly when its name is a WikiWord. -/
theorem getsForm_iff
    (hasks : Asks s d (str "/" ++ withoutFragment (formatS (str "EditPage?page=" ++ t)))) :
    GetsForm s t ↔ IsWikiWord t := by
  obtain ⟨w, hlocation, hw⟩ := withoutFragment_edit t
  have hpath : ch '?' ∉ str "/EditPage" := by decide
  have hurl : s.request.url = str "/EditPage" := by
    rw [hasks.url, hlocation, stripQuery_append hpath]
  have hparameters : s.request.parameters = parseFields (str "page=" ++ w) .empty := by
    rw [hasks.parameters, hlocation, parseParameters_append hpath]
  have hcreator : specialPageCreator (urlTitle s.request.url) = some .editPage := by
    rw [hurl]
    decide
  have hpage : wikiPage s = createSpecialEditPage s.viewed :=
    wikiPage_special (by rw [hurl]; decide) hcreator
  have hview : s.request.view ≠ .exporting := by
    rw [Request.view]
    split_ifs <;> simp
  rw [GetsForm, hasks.disk]
  constructor
  · rintro ⟨hanswer, _⟩
    rw [hpage] at hanswer
    have hnil := createSpecialEditPage_nil_iff s.viewed
    cases hget : s.viewed.request.parameters.get (str "page") with
    | none =>
      rw [hnil.mpr (by rw [SpecialPage.isNil, hget]; rfl)] at hanswer
      cases hanswer
    | some name =>
      cases hv : isValidTitle name with
      | false =>
        rw [hnil.mpr (by rw [SpecialPage.isNil, hget]; simp [hv])] at hanswer
        cases hanswer
      | true =>
        rw [createSpecialEditPage_some hv hget] at hanswer
        have hname := isValidTitle_iff.mp hv
        have heq := editPageHtml_injective hview hname.alnum
          (Option.some.inj (Except.ok.inj hanswer))
        exact heq ▸ hname
  · intro ht
    obtain rfl := hw ht.alnum
    have hencoded : encodeFields [(str "page", w)] = str "page=" ++ w := by
      have hconst : str "page" ++ str "=" = str "page=" := by decide
      simp [encodeFields, encodeField, urlencode_alnum ht.alnum, ← hconst]
    have hname : str "page" ≠ [] ∧ ∀ b ∈ str "page", isLower b := by decide
    have hfields : s.request.parameters = setFields [(str "page", w)] .empty := by
      rw [hparameters, ← hencoded, parseFields_encodeFields
        ⟨by simp, by simpa using hname.1, by simpa using hname.2⟩]
    have hget : s.viewed.request.parameters.get (str "page") = some w := by
      rw [viewed_request, hfields, setFields_empty_get (by simp)]
      rfl
    have hwiki : s.request.view = .wiki := by
      rw [Request.view, hfields, setFields_empty_get (by simp)]
      rfl
    have hform := createSpecialEditPage_some (isValidTitle_iff.mpr ht) hget
    rw [← hpage, viewed_formatter, viewed_disk, hwiki, hasks.disk] at hform
    exact handleGetRequest_answered hform hasks.status

end

/-! ### The links of a page -/

/-- What holds of the answer in one state that asks holds in all of them. -/
theorem forall_asks_iff {sortByDate : DateSort} {d : Disk} {location : Bytes} {P : State → Prop}
    {Q : Prop} (h : ∀ s, Asks s d location → s.sortByDate = sortByDate → (P s ↔ Q)) :
    (∀ s, Asks s d location → s.sortByDate = sortByDate → P s) ↔ Q := by
  refine ⟨fun hall => ?_, fun hQ s hasks hsort => (h s hasks hsort).mpr hQ⟩
  obtain ⟨s, hasks, hsort⟩ := exists_asks sortByDate d location
  exact (h s hasks hsort).mp (hall s hasks hsort)

/-- Each link is answered as it promises exactly when it leads to a title with an answer. -/
theorem live_iff (call : LinkCall) (sortByDate : DateSort) (d : Disk) :
    call.Live sortByDate d ↔ call.Leads sortByDate d := by
  rw [LinkCall.Live, LinkCall.Leads]
  cases htarget : call.target (formatterEnv .wiki d) with
  | special =>
    have hhref : call.href (formatterEnv .wiki d) = some (formatS call.topic) := by
      rw [LinkCall.href, htarget]
      rfl
    have hspecial : isSpecialPage call.topic = true := LinkCall.target_special htarget
    simp only [hhref, Option.some.injEq, forall_eq']
    refine forall_asks_iff fun s hasks hsort => ?_
    rw [LinkCall.Kept, hasks.disk, htarget, ← hsort]
    exact getsPage_iff ⟨call.topic, none, none⟩ hasks fun hnone => by
      simp [isSpecialPage, hnone] at hspecial
  | existing t =>
    have hhref : call.href (formatterEnv .wiki d) = some (formatS (call.withAnchor t)) := by
      rw [LinkCall.href, htarget]
      rfl
    have hexists : WikiStore.topicExists d t = true := LinkCall.target_existing htarget
    simp only [hhref, Option.some.injEq, forall_eq']
    refine forall_asks_iff fun s hasks hsort => ?_
    rw [LinkCall.Kept, hasks.disk, htarget, ← hsort]
    exact getsPage_iff call hasks fun _ => hexists
  | missing =>
    have hhref : call.href (formatterEnv .wiki d) =
        some (formatS (str "EditPage?page=" ++ call.topic)) := by
      rw [LinkCall.href, htarget]
      rfl
    simp only [hhref, Option.some.injEq, forall_eq']
    refine forall_asks_iff fun s hasks hsort => ?_
    rw [LinkCall.Kept, hasks.disk, htarget]
    exact getsForm_iff hasks

/-- Every internal link of a page is answered as it promises exactly when every link leads to a
title with an answer. -/
theorem pageCalls_live_iff (sortByDate : DateSort) (d : Disk) (content : Bytes) :
    (∀ call ∈ pageCalls (formatterEnv .wiki d) content {}, call.Live sortByDate d) ↔
      ∀ call ∈ pageCalls (formatterEnv .wiki d) content {}, call.Leads sortByDate d :=
  forall₂_congr fun call _ => live_iff call sortByDate d

/-- The form to write a page that cannot be written. -/
theorem pageCalls_foo_not_live :
    ch '<' ∉ str "[[foo][text]]" ∧ ch '>' ∉ str "[[foo][text]]" ∧
      ¬ ∀ call ∈ pageCalls (formatterEnv .wiki Disk.empty) (str "[[foo][text]]") {},
        call.Live .insertion Disk.empty := by
  have hcall : ⟨str "foo", none, some (str "text")⟩ ∈
      pageCalls (formatterEnv .wiki Disk.empty) (str "[[foo][text]]") {} := by
    decide +kernel
  have htarget : LinkCall.target (formatterEnv .wiki Disk.empty)
      ⟨str "foo", none, some (str "text")⟩ = .missing := by
    decide
  have hword : ¬ IsWikiWord (str "foo") := by
    rw [← isValidTitle_iff]
    decide
  refine ⟨by decide, by decide, fun h => hword ?_⟩
  have hleads := (live_iff _ _ _).mp (h _ hcall)
  rwa [LinkCall.Leads, htarget] at hleads

end MoonWiki
