import MoonWiki.SavedFiles
import MoonWiki.SavePage
import MoonWiki.ServedFiles

/-! Saving a page and following the redirection. -/
namespace MoonWiki
open Lua

/-! ### The titles of HTML pages -/

/-- The document title of the HTML text starts with these bytes. -/
def Titled (t html : Bytes) : Prop := str "<HTML><HEAD><TITLE>" ++ t <+: html

theorem prefix_htk {field : String} {x y : Bytes} {xs : List Bytes} (h : y <+: x) :
    str "<" ++ str field ++ str ">" ++ y <+: htk field [] (x :: xs) := by
  obtain ⟨z, rfl⟩ := h
  refine ⟨z ++ (xs.flatten ++ (str "</" ++ str field ++ str ">")), ?_⟩
  simp [htk]

theorem titled_htk (t body : Bytes) :
    Titled (t ++ str "<") (htk "HTML" [] [createHtmlHeader t, body]) := by
  have hstart : str "<HTML><HEAD><TITLE>" ++ (t ++ str "<") = str "<" ++ str "HTML" ++ str ">" ++
      (str "<" ++ str "HEAD" ++ str ">" ++
        (str "<" ++ str "TITLE" ++ str ">" ++ t ++ str "<")) := by
    have hconst : str "<HTML><HEAD><TITLE>" = str "<" ++ str "HTML" ++ str ">" ++
        (str "<" ++ str "HEAD" ++ str ">" ++ (str "<" ++ str "TITLE" ++ str ">")) := by
      decide
    rw [hconst]
    simp only [List.append_assoc]
  have hend : str "</" ++ str "TITLE" ++ str ">" = str "<" ++ str "/TITLE>" := by decide
  rw [Titled, hstart]
  refine prefix_htk (prefix_htk ⟨str "/TITLE>", ?_⟩)
  rw [htk, if_pos (by simp), hend]
  simp

/-- Two titles of one text agree as far as both go. -/
theorem Titled.compare {t t' html : Bytes} (h : Titled t html) (h' : Titled t' html) :
    t <+: t' ∨ t' <+: t := by
  rcases List.prefix_or_prefix_of_prefix h h' with hp | hp
  · exact .inl ((List.prefix_append_right_inj _).mp hp)
  · exact .inr ((List.prefix_append_right_inj _).mp hp)

theorem Titled.head {t u html : Bytes} (h : Titled (t ++ u) html) : Titled t html := by
  rw [Titled, ← List.append_assoc] at h
  exact (List.prefix_append _ _).trans h

/-- The pages that the action may return. -/
def Returns {α : Type} (P : α → Prop) (x : Action (Option α)) : Prop :=
  ∀ s a, (x s).1 = .ok (some a) → P a

section
variable {α β : Type} {P : β → Prop}

theorem Returns.bind {x : Action α} {f : α → Action (Option β)} (hf : ∀ a, Returns P (f a)) :
    Returns P (x >>= f) := by
  intro s b h
  rw [Run.bind_apply] at h
  rcases hx : x s with ⟨e | a, s'⟩
  · simp [hx] at h
  · rw [hx] at h
    exact hf a s' b h

theorem Returns.some {b : β} (h : P b) : Returns P (Pure.pure (some b) : Action (Option β)) := by
  intro s a ha
  obtain rfl : b = a := by simpa using ha
  exact h

theorem Returns.none : Returns P (Pure.pure none : Action (Option β)) := by
  intro s a ha
  simp at ha

theorem Returns.error (e : LuaError) : Returns P (Run.error e : Action (Option β)) := by
  intro s a ha
  simp at ha

theorem Returns.ite {c : Prop} [Decidable c] {x y : Action (Option β)} (hx : Returns P x)
    (hy : Returns P y) : Returns P (if c then x else y) := by
  by_cases hc : c
  · rwa [if_pos hc]
  · rwa [if_neg hc]

end

/-- How the titles of the special pages start. -/
def SpecialPage.heading : SpecialPage → Bytes
  | .editPage => str "Edit "
  | .indexPage => str "Index page"
  | .recentChanges => str "Recent changes"
  | .searchPage => str "Search<"
  | .reverseLink => str "Reverse links for "

theorem processSpecialPage_titled (special : SpecialPage) :
    Returns (Titled special.heading) (processSpecialPage special) := by
  cases special with
  | editPage =>
    refine .bind fun s => ?_
    cases s.request.parameters.get (str "page") with
    | none => exact .bind fun _ => .none
    | some pageName =>
      refine .ite (.bind fun _ => .none) (.bind fun _ => .bind fun _ => .some ?_)
      exact (titled_htk _ _).head.head
  | indexPage =>
    exact .bind fun _ => .bind fun _ => .bind fun _ => .some (titled_htk _ _).head
  | recentChanges =>
    exact .bind fun _ => .bind fun _ => .bind fun _ => .some (titled_htk _ _).head
  | searchPage =>
    have hsearch : str "Search<" = str "Search" ++ str "<" := by decide
    refine .bind fun s => .some ?_
    change Titled (str "Search<") _
    rw [hsearch]
    exact titled_htk _ _
  | reverseLink =>
    refine .bind fun s => .bind fun valid => .ite (.bind fun _ => .none) ?_
    dsimp only
    split
    · exact .error _
    · exact .bind fun _ => .bind fun _ => .bind fun _ => .some (titled_htk _ _).head.head

/-- A special page does not bear its own name as its title. -/
theorem heading_ne_name {special : SpecialPage} {name x html : Bytes}
    (hname : specialPageCreator name = some special) (h : Titled special.heading html) :
    ¬ Titled (name ++ x) html := by
  intro hx
  have hmem : (name, special) ∈ [(str "EditPage", SpecialPage.editPage),
      (str "IndexPage", .indexPage), (str "RecentChanges", .recentChanges),
      (str "SearchPage", .searchPage), (str "ReverseLink", .reverseLink)] := by
    obtain ⟨l, l', heq, _⟩ := List.lookup_eq_some_iff.mp hname
    rw [heq]
    simp
  have hdiffer : ∀ e ∈ [(str "EditPage", SpecialPage.editPage),
      (str "IndexPage", .indexPage), (str "RecentChanges", .recentChanges),
      (str "SearchPage", .searchPage), (str "ReverseLink", .reverseLink)],
      ¬ e.2.heading <+: e.1 ∧ ¬ e.1 <+: e.2.heading := by decide
  rcases h.compare hx.head with hp | hp
  · exact (hdiffer _ hmem).1 hp
  · exact (hdiffer _ hmem).2 hp

/-! ### Following the redirection -/

theorem stripQuery_plain {uri : Bytes} (h : ch '?' ∉ uri) : stripQuery uri = uri := by
  rw [stripQuery, query_pattern]
  induction uri with
  | nil => exact replaceAll_nil rfl
  | cons b uri ih =>
    have hb : b ≠ ch '?' := fun hb => h (by simp [hb])
    refine (replaceAll_miss (matchHere_no_query hb _)).trans ?_
    exact congrArg (b :: ·) (ih fun hu => h (by simp [hu]))

theorem parseParameters_plain {uri : Bytes} (h : ch '?' ∉ uri) (t : Table) :
    parseParameters uri t = t := by
  have hfind : gfind (pat "(%?.*)") uri = [] := by
    rw [query_pattern]
    induction uri with
    | nil => exact gfind_nil rfl
    | cons b uri ih =>
      have hb : b ≠ ch '?' := fun hb => h (by simp [hb])
      rw [gfind_miss (matchHere_no_query hb _), ih fun hu => h (by simp [hu])]
  rw [parseParameters, hfind]
  rfl

/-- The handler finds a parsed GET request for this location. -/
structure Asks (s : State) (disk : Disk) (location : Bytes) : Prop where
  url : s.request.url = stripQuery location
  parameters : s.request.parameters = parseParameters location .empty
  disk : s.disk = disk
  status : s.response.status = 200
  formatter : s.formatterState = {}

theorem exists_asks (sortByDate : DateSort) (disk : Disk) (location : Bytes) :
    ∃ s, Asks s disk location ∧ s.sortByDate = sortByDate :=
  ⟨{ State.fresh with
      request := {
        url := stripQuery location
        parameters := parseParameters location .empty }
      sortByDate
      disk }, ⟨rfl, rfl, rfl, rfl, rfl⟩, rfl⟩

/-- A connection leads there with the URI it sends. -/
theorem asks_parsed {sock : Socket} (hok : (parsed sock).1 = .ok true) (sortByDate : DateSort)
    (disk : Disk) :
    Asks ((parsed sock).2.on sortByDate disk [] {}) disk (parsed sock).2.request.uri := by
  rcases parseHttpRequest_cases (WikiEngine.new .insertion sock .empty) with
    ⟨⟨socket, request, status, _, hfalse⟩, _⟩ | ⟨socket, header, postData, _, _, hread⟩
  · rw [parsed, hfalse] at hok
    cases hok
  · rw [parsed] at hok ⊢
    rw [hread] at hok ⊢
    rcases hbody : readBody _ with ⟨result, s⟩
    rw [hbody] at hok
    obtain ⟨⟨data, form, hrequest⟩, hresponse⟩ := readBody_kept hbody
    have hparameters : (parseRequestLine { header, postData }).parameters = Table.empty := by
      rw [parseRequestLine]
      split <;> rfl
    refine ⟨?_, ?_, rfl, ?_, rfl⟩
    · change s.request.url = stripQuery s.request.uri
      rw [hrequest]
      rfl
    · change s.request.parameters = parseParameters s.request.uri .empty
      rw [hrequest, ← hparameters]
      rfl
    · change s.response.status = 200
      rw [hresponse hok]
      rfl

/-- The request is answered with this wiki page. -/
def AnsweredWith (s : State) (html : Bytes) : Prop :=
  (wikiPage s).1 = .ok (some html) ∧
    ∃ s', handleGetRequest s = (.ok true, s') ∧ s'.response.status = 200 ∧
      s'.response.content = html

theorem processRequest_answered {sock : Socket} (hok : (parsed sock).1 = .ok true)
    (hget : upper (parsed sock).2.request.method = str "GET") {sortByDate : DateSort}
    {disk : Disk} {html : Bytes}
    (h : AnsweredWith ((parsed sock).2.on sortByDate disk [] {}) html) :
    (processRequest sortByDate sock disk).2.response.status = 200 ∧
      (processRequest sortByDate sock disk).2.response.content = html := by
  obtain ⟨_, s', hs', hstatus, hcontent⟩ := h
  have hmethod : upper ((parsed sock).2.on sortByDate disk [] {}).request.method = str "GET" := hget
  have hrun : answer (WikiEngine.new sortByDate sock disk) = (.ok true, s') := by
    rw [answer, Run.bind_apply, parseHttpRequest_new, hok]
    simp only [Bool.not_true, Bool.false_eq_true, ↓reduceIte, Run.bind_apply, Run.get_apply,
      hmethod, methodHandler]
    exact hs'
  rw [processRequest_eq, Run.bind_ok hrun]
  exact ⟨hstatus, hcontent⟩

/-- The page of a title with the given text. -/
def renderedPage (disk : Disk) (title content : Bytes) : Bytes :=
  createHtmlPage title (wikiPageTemplate (formatterEnv .wiki disk) title content {}).1

/-- A connection that sends a POST request to save a page. -/
structure PostsSave (sock : Socket) (title content : Bytes) : Prop where
  ok : (parsed sock).1 = .ok true
  method : upper (parsed sock).2.request.method = str "POST"
  action : ∃ action, (parsed sock).2.request.form.get (str "action") = some action ∧
    gsubStr (pat " ") [] action = str "Save"
  text : (parsed sock).2.request.form.get (str "text") = some content
  page : (parsed sock).2.request.form.get (str "page") = some title

/-- The making of an error response keeps status, location and disk. -/
theorem respond_false {s : State} (h : (httpErrors s.response.status).isSome) :
    (respond false s).2.response.status = s.response.status ∧
      (respond false s).2.response.location = s.response.location ∧
      (respond false s).2.disk = s.disk := by
  obtain ⟨text, htext⟩ := Option.isSome_iff_exists.mp h
  simp [respond, prepareErrorResponse, createHttpErrorPage, Run.bind_apply, htext]

theorem respond_redirected (s : State) (newPage : Bytes) :
    (respond false (s.redirected newPage)).2.response.location = some newPage ∧
      (respond false (s.redirected newPage)).2.disk = s.disk := by
  have hstatus : (httpErrors (s.redirected newPage).response.status).isSome := by
    change (httpErrors 303).isSome
    decide
  exact (respond_false hstatus).2

theorem respond_failed (s : State) : (respond false (s.failed 500)).2.response.status = 500 := by
  have hstatus : (httpErrors (s.failed 500).response.status).isSome := by
    change (httpErrors 500).isSome
    decide
  exact (respond_false hstatus).1

theorem answer_save {sock : Socket} {title content : Bytes} (h : PostsSave sock title content)
    (sortByDate : DateSort) (disk : Disk) :
    answer (WikiEngine.new sortByDate sock disk) =
      postHandlerSave ((parsed sock).2.on sortByDate disk [] {}) := by
  obtain ⟨action, haction, hsave⟩ := h.action
  have hpost : str "POST" ≠ str "GET" := by decide
  have hmethod : upper ((parsed sock).2.on sortByDate disk [] {}).request.method = str "POST" :=
    h.method
  have hform : ((parsed sock).2.on sortByDate disk [] {}).request.form.get (str "action") =
      some action := haction
  rw [answer, Run.bind_apply, parseHttpRequest_new, h.ok]
  simp only [Bool.not_true, Bool.false_eq_true, ↓reduceIte, Run.bind_apply, Run.get_apply, hmethod,
    methodHandler, hpost, handlePostRequest, hform, postActionHandler, hsave]

/-- A redirected save has written what the disk took of the text. -/
theorem save_redirects {sock : Socket} {title content : Bytes} (h : PostsSave sock title content)
    {sortByDate : DateSort} {disk : Disk}
    (hredirect : (processRequest sortByDate sock disk).2.response.status = 303) :
    ∃ k, disk.writing = .accepts k ∧
      (processRequest sortByDate sock disk).2.response.location = some (str "/" ++ title) ∧
      (processRequest sortByDate sock disk).2.disk =
        disk.put (pagePath title) ((withoutCR content).take k) := by
  obtain ⟨s, hs⟩ : ∃ s, (parsed sock).2.on sortByDate disk [] {} = s := ⟨_, rfl⟩
  have hdisk : s.disk = disk := hs ▸ rfl
  have hrun : answer (WikiEngine.new sortByDate sock disk) = (.ok false,
      if (WikiStore.savePage s.disk title content).1 then
        (s.saved title content).redirected (str "/" ++ title)
      else (s.saved title content).failed 500) := by
    rw [answer_save h, hs]
    exact postHandlerSave_some (hs ▸ h.text) (hs ▸ h.page)
  rw [processRequest_eq, Run.bind_ok hrun] at hredirect ⊢
  rw [hdisk] at hredirect ⊢
  cases hw : disk.writing with
  | openFails =>
    rw [savePage_openFails hw, if_neg (by simp), respond_failed] at hredirect
    cases hredirect
  | accepts k =>
    have hsave : WikiStore.savePage disk title content = _ := savePage_accepts hw
    rw [hsave, if_pos rfl]
    obtain ⟨hlocation, hafter⟩ := respond_redirected (s.saved title content) (str "/" ++ title)
    refine ⟨k, rfl, hlocation, hafter.trans ?_⟩
    rw [State.saved, hdisk, hsave]

/-! ### The answer -/

theorem wikiPage_titled {s : State} {html : Bytes} (h : (wikiPage s).1 = .ok (some html)) :
    isValidTitle (urlTitle s.request.url) = true ∧
      ((∃ special, specialPageCreator (urlTitle s.request.url) = some special ∧
        Titled special.heading html) ∨
      specialPageCreator (urlTitle s.request.url) = none ∧
        (Titled (urlTitle s.request.url ++ str "<") html ∨ Titled (str "Not found ") html)) := by
  cases hv : isValidTitle (urlTitle s.request.url) with
  | false =>
    rw [wikiPage_invalid hv] at h
    cases h
  | true =>
    refine ⟨rfl, ?_⟩
    cases hs : specialPageCreator (urlTitle s.request.url) with
    | some special =>
      rw [wikiPage_special hv hs] at h
      exact .inl ⟨special, rfl, processSpecialPage_titled special _ _ h⟩
    | none =>
      refine .inr ⟨rfl, ?_⟩
      cases hload : WikiStore.loadPage s.disk (urlTitle s.request.url) with
      | none =>
        rw [wikiPage_missing hv hs hload] at h
        obtain rfl := Option.some.inj (Except.ok.inj h)
        exact .inr (titled_htk _ _).head.head
      | some content =>
        rcases hbody : wikiPageTemplate (formatterEnv s.request.view s.disk)
          (urlTitle s.request.url) content { s.formatterState with probed := [] } with ⟨body, st⟩
        rw [wikiPage_found hv hs hload hbody] at h
        obtain rfl := Option.some.inj (Except.ok.inj h)
        exact .inl (titled_htk _ _)

/-- A URL that names only the part of the title before some mark is answered with a page of another
title. -/
theorem wikiPage_other_title {s : State} {html t x : Bytes} {c : Byte}
    (hc : c ∉ str "<Not found StartPage") (h : (wikiPage s).1 = .ok (some html))
    (ht : urlTitle s.request.url = t) (hhtml : Titled (t ++ c :: x) html) : False := by
  obtain ⟨hv, htitled⟩ := wikiPage_titled h
  rw [ht] at hv htitled
  have hmark : Titled (t ++ [c]) html := by
    rw [show t ++ c :: x = (t ++ [c]) ++ x by simp] at hhtml
    exact hhtml.head
  rcases htitled with ⟨special, hs, hheading⟩ | ⟨_, hfound | hmissing⟩
  · exact heading_ne_name hs hheading hhtml
  · have hne : str "<" ≠ [c] := by
      intro heq
      have hc' : c ∈ str "<" := by simp [heq]
      exact hc (List.IsPrefix.subset (by decide) hc')
    rcases hfound.compare hmark with hp | hp
    · exact hne (((List.prefix_append_right_inj t).mp hp).eq_of_length rfl)
    · exact hne (((List.prefix_append_right_inj t).mp hp).eq_of_length rfl).symm
  · have halnum := (isValidTitle_iff.mp hv).alnum
    rcases hmissing.compare hmark with hp | hp
    · have hblank : ch ' ' ∈ t ++ [c] := hp.subset (by decide)
      rcases List.mem_append.mp hblank with hb | hb
      · exact absurd (halnum _ hb) (by decide)
      · obtain rfl : ch ' ' = c := by simpa using hb
        exact hc (by decide)
    · exact hc (List.IsInfix.subset ⟨str "<", str "StartPage", by decide⟩
        (hp.subset (show c ∈ t ++ [c] by simp)))

/-- The start page is not answered as a page of an empty title. -/
theorem wikiPage_start {s : State} {html : Bytes} {c : Byte} (hc : c ∉ str "Not found StartPage")
    (h : (wikiPage s).1 = .ok (some html)) (ht : urlTitle s.request.url = str "StartPage")
    (hhtml : Titled [c] html) : False := by
  obtain ⟨_, htitled⟩ := wikiPage_titled h
  rw [ht] at htitled
  have hparts : ∀ u ∈ [str "StartPage", str "Not found "],
      (∀ b ∈ u, b ∈ str "Not found StartPage") ∧ 1 < u.length := by decide
  have hclash : ∀ u ∈ [str "StartPage", str "Not found "], ¬ Titled u html := by
    intro u hu htu
    obtain ⟨hsub, hlen⟩ := hparts u hu
    rcases htu.compare hhtml with hp | hp
    · exact absurd hp.length_le (by simpa using hlen)
    · exact hc (hsub c (hp.subset (show c ∈ [c] by simp)))
  rcases htitled with ⟨special, hs, _⟩ | ⟨_, hfound | hmissing⟩
  · have hnone : specialPageCreator (str "StartPage") = none := by decide
    rw [hnone] at hs
    cases hs
  · exact hclash _ (by simp) hfound.head
  · exact hclash _ (by simp) hmissing

/-- The text the page has on the disk after it was saved. -/
def Disk.taken (d : Disk) (text : Bytes) : Bytes :=
  match d.writing with
  | .openFails => []
  | .accepts k => text.take k

/-- The disk after the page was saved. -/
def Disk.afterSave (d : Disk) (title content : Bytes) : Disk :=
  d.put (pagePath title) (d.taken (withoutCR content))

def rendered (disk : Disk) (text : Bytes) : Bytes :=
  (formatWikiPage (formatterEnv .wiki disk) text {}).1

theorem renderedPage_eq_iff {disk : Disk} {title text text' : Bytes} :
    renderedPage disk title text = renderedPage disk title text' ↔
      rendered disk text = rendered disk text' := by
  have hpage : ∀ text, renderedPage disk title text =
      createHtmlPage title
        (htk "BODY" [] [standardPageHeader .wiki title, rendered disk text]) := by
    intro text
    rw [renderedPage, wikiPageTemplate, rendered]
    rcases formatWikiPage (formatterEnv .wiki disk) text {} with ⟨body, st⟩
    rfl
  rw [hpage, hpage]
  constructor
  · intro h
    simpa [createHtmlPage, htk] using h
  · intro h
    rw [h]

section
variable {s s' : State} {disk : Disk} {title text html : Bytes}

theorem urlTitle_cons {p : Bytes} (hp : p ≠ []) : urlTitle (str "/" ++ p) = p := by
  have hne : str "/" ++ p ≠ str "/" := by simpa using hp
  rw [urlTitle, if_neg hne]
  rfl

/-- The URL names the title, or what stands in it before a mark that ends the path of a URL. -/
def NamesUpTo (url title : Bytes) : Prop :=
  ∃ p, url = str "/" ++ p ∧ (title = p ∨ ∃ c x, title = p ++ c :: x ∧ c ∈ [ch '?', ch '#', 0])

/-- Whatever is on the disk, only a WikiWord that is no special page can be answered with a page
of its title. -/
theorem title_of_named (hurl : NamesUpTo s.request.url title)
    (h : (wikiPage s).1 = .ok (some html)) (hhtml : Titled (title ++ str "<") html) :
    isValidTitle title = true ∧ specialPageCreator title = none := by
  have hlt : ch '<' ∉ str "Not found StartPage" := by decide
  obtain ⟨p, hp, htitle⟩ := hurl
  rcases htitle with rfl | ⟨c, x, rfl, hc⟩
  · by_cases hnil : title = []
    · subst hnil
      exact (wikiPage_start hlt h (by rw [hp]; rfl) hhtml).elim
    · obtain ⟨hv, htitled⟩ := wikiPage_titled h
      rw [hp, urlTitle_cons hnil] at hv htitled
      refine ⟨hv, ?_⟩
      rcases htitled with ⟨special, hs, hheading⟩ | ⟨hs, _⟩
      · exact (heading_ne_name hs hheading hhtml).elim
      · exact hs
  · have hmarks : ∀ c ∈ [ch '?', ch '#', 0], c ∉ str "<Not found StartPage" := by decide
    have hmark := hmarks c hc
    rw [List.append_assoc, List.cons_append] at hhtml
    by_cases hnil : p = []
    · subst hnil
      refine (wikiPage_start (fun hc => hmark ?_) h (by rw [hp]; rfl)
        (Titled.head (u := x ++ str "<") hhtml)).elim
      exact List.mem_cons_of_mem _ hc
    · exact (wikiPage_other_title hmark h (by rw [hp, urlTitle_cons hnil]) hhtml).elim

/-- What is left of a location without its query names the title up to its query. -/
theorem namesUpTo_stripQuery (title : Bytes) :
    NamesUpTo (stripQuery (str "/" ++ title)) title := by
  have hslash : ch '?' ∉ str "/" := by decide
  by_cases hq : ch '?' ∈ title
  · obtain ⟨p, q, rfl, hp⟩ := List.eq_append_cons_of_mem hq
    refine ⟨p, ?_, .inr ⟨ch '?', q, rfl, by simp⟩⟩
    rw [← List.append_assoc]
    exact stripQuery_append (by simp [hslash, hp]) q
  · exact ⟨title, stripQuery_plain (by simp [hslash, hq]), .inl rfl⟩

theorem title_of_answered (hasks : Asks s disk (str "/" ++ title))
    (h : (wikiPage s).1 = .ok (some html)) (hhtml : Titled (title ++ str "<") html) :
    isValidTitle title = true ∧ specialPageCreator title = none :=
  title_of_named (hasks.url ▸ namesUpTo_stripQuery title) h hhtml

theorem handleGetRequest_answered (h : wikiPage s = (.ok (some html), s'))
    (hs : s'.response.status = 200) : AnsweredWith s html := by
  refine ⟨by rw [h], ?_⟩
  rw [handleGetRequest, Run.bind_ok h]
  exact ⟨_, rfl, hs, rfl⟩

/-- The location of a WikiWord is its URL, with no query. -/
theorem asks_title (hasks : Asks s disk (str "/" ++ title)) (ht : IsWikiWord title) :
    urlTitle s.request.url = title ∧ s.request.view = .wiki := by
  have hplain : ch '?' ∉ str "/" ++ title := by
    intro hq
    rcases List.mem_append.mp hq with hq | hq
    · exact absurd hq (by decide)
    · exact absurd (ht.alnum _ hq) (by decide)
  have hnil : title ≠ [] := by
    obtain ⟨u, l, v, w, rfl, hu, _⟩ := ht
    simp [hu]
  rw [hasks.url, Request.view, hasks.parameters, stripQuery_plain hplain, urlTitle_cons hnil,
    parseParameters_plain hplain]
  exact ⟨rfl, rfl⟩

/-- A stored page is answered, whatever special pages and raw files there are. -/
theorem wikiPage_stored (hasks : Asks s disk (str "/" ++ title)) (ht : IsWikiWord title)
    (hs : specialPageCreator title = none) (hload : WikiStore.loadPage disk title = some text) :
    ∃ s', wikiPage s = (.ok (some (renderedPage disk title text)), s') ∧
      s'.response.status = 200 := by
  obtain ⟨htitle, hview⟩ := asks_title hasks ht
  rcases hbody : wikiPageTemplate (formatterEnv .wiki disk) title text {} with ⟨body, st⟩
  have hbody' : wikiPageTemplate (formatterEnv s.request.view s.disk)
      (urlTitle s.request.url) text { s.formatterState with probed := [] } = (body, st) := by
    rw [htitle, hview, hasks.disk, hasks.formatter]
    exact hbody
  have hpage := wikiPage_found (s := s) (by rw [htitle]; exact isValidTitle_iff.mpr ht)
    (by rw [htitle]; exact hs) (by rw [htitle, hasks.disk]; exact hload) hbody'
  rw [htitle] at hpage
  rw [renderedPage, hbody]
  exact ⟨_, hpage, hasks.status⟩

end

/-- After a redirected save the location is answered with the page just saved exactly when the
title is a WikiWord that is no special page, and what the disk takes of the text renders as the
text does. -/
theorem save_then_get_iff {sock : Socket} {title content : Bytes} {sortByDate : DateSort}
    {disk : Disk} (h : PostsSave sock title content)
    (hredirect : (processRequest sortByDate sock disk).2.response.status = 303) :
    ∃ location, (processRequest sortByDate sock disk).2.response.location = some location ∧
      ∀ s, Asks s (processRequest sortByDate sock disk).2.disk location →
        (AnsweredWith s (renderedPage s.disk title (withoutCR content)) ↔
          IsWikiWord title ∧ isSpecialPage title = false ∧
            rendered (disk.afterSave title content) (disk.taken (withoutCR content)) =
              rendered (disk.afterSave title content) (withoutCR content)) := by
  obtain ⟨k, hk, hlocation, hdisk⟩ := save_redirects h hredirect
  have hafter : (processRequest sortByDate sock disk).2.disk = disk.afterSave title content := by
    rw [hdisk, Disk.afterSave, Disk.taken, hk]
  have hload : WikiStore.loadPage (disk.afterSave title content) title =
      some (disk.taken (withoutCR content)) := by
    rw [Disk.afterSave, loadPage_put]
  refine ⟨_, hlocation, ?_⟩
  rw [hafter]
  intro s hasks
  rw [hasks.disk]
  constructor
  · rintro ⟨hpage, _⟩
    obtain ⟨hv, hs⟩ := title_of_answered hasks hpage (titled_htk _ _)
    have ht := isValidTitle_iff.mp hv
    obtain ⟨s', hstored, _⟩ := wikiPage_stored hasks ht hs hload
    rw [hstored] at hpage
    have heq := Option.some.inj (Except.ok.inj hpage)
    exact ⟨ht, by rw [isSpecialPage, hs]; rfl, renderedPage_eq_iff.mp heq⟩
  · rintro ⟨ht, hs, heq⟩
    have hnone : specialPageCreator title = none := by simpa [isSpecialPage] using hs
    obtain ⟨s', hstored, hstatus⟩ := wikiPage_stored hasks ht hnone hload
    rw [renderedPage_eq_iff.mpr heq] at hstored
    exact handleGetRequest_answered hstored hstatus

/-- A WikiWord whose text the disk takes whole. -/
theorem save_then_get_foo_bar :
    let sock : Socket :=
      ⟨[str "POST / HTTP/1.1\r\nContent-Length: 30\r\n\r\naction=Save&text=x&page=FooBar"],
        by decide, fun n => some n.floor.toNat⟩
    let sock' : Socket := ⟨[str "GET /FooBar HTTP/1.1\r\n\r\n"], by decide,
      fun n => some n.floor.toNat⟩
    let disk := (processRequest .insertion sock .empty).2.disk
    (processRequest .insertion sock .empty).2.response.location = some (str "/FooBar") ∧
    (processRequest .insertion sock' disk).2.response.status = 200 ∧
    (processRequest .insertion sock' disk).2.response.content =
      renderedPage disk (str "FooBar") (str "x") := by
  intro sock sock' disk
  have h : PostsSave sock (str "FooBar") (str "x") :=
    ⟨by decide +kernel, by decide +kernel, ⟨str "Save", by decide +kernel⟩, by decide +kernel,
      by decide +kernel⟩
  have hredirect : (processRequest .insertion sock .empty).2.response.status = 303 := by
    decide +kernel
  have hwhole : Disk.empty.taken (withoutCR (str "x")) = withoutCR (str "x") := by
    decide
  obtain ⟨location, hlocation, hiff⟩ := save_then_get_iff h hredirect
  have hfound : (processRequest .insertion sock .empty).2.response.location =
      some (str "/FooBar") := by decide +kernel
  obtain rfl := Option.some.inj (hlocation.symm.trans hfound)
  have huri : (parsed sock').2.request.uri = str "/FooBar" := by decide
  have hasks : Asks ((parsed sock').2.on .insertion disk [] {}) disk (str "/FooBar") :=
    huri ▸ asks_parsed (by decide) .insertion disk
  have hanswer := (hiff _ hasks).mpr
    ⟨isValidTitle_iff.mp (by decide), by decide, by rw [hwhole]⟩
  have hplain : withoutCR (str "x") = str "x" := by decide
  rw [hplain] at hanswer
  exact ⟨hfound, processRequest_answered (by decide) (by decide) hanswer⟩

/-- A page saved under the name of a special page. -/
theorem save_then_get_index_page :
    let sock : Socket :=
      ⟨[str "POST / HTTP/1.1\r\nContent-Length: 33\r\n\r\naction=Save&text=x&page=IndexPage"],
        by decide, fun n => some n.floor.toNat⟩
    let sock' : Socket := ⟨[str "GET /IndexPage HTTP/1.1\r\n\r\n"], by decide,
      fun n => some n.floor.toNat⟩
    let disk := (processRequest .insertion sock .empty).2.disk
    let asked := (parsed sock').2.on .insertion disk [] {}
    PostsSave sock (str "IndexPage") (str "x") ∧
    (processRequest .insertion sock .empty).2.response.status = 303 ∧
    (processRequest .insertion sock .empty).2.response.location = some (str "/IndexPage") ∧
    Asks asked disk (str "/IndexPage") ∧
    ¬ AnsweredWith asked (renderedPage disk (str "IndexPage") (str "x")) := by
  intro sock sock' disk asked
  have huri : (parsed sock').2.request.uri = str "/IndexPage" := by decide
  have hasks : Asks asked disk (str "/IndexPage") :=
    huri ▸ asks_parsed (by decide) .insertion disk
  refine ⟨⟨by decide +kernel, by decide +kernel, ⟨str "Save", by decide +kernel⟩,
    by decide +kernel, by decide +kernel⟩, by decide +kernel, by decide +kernel, hasks, ?_⟩
  rintro ⟨hpage, _⟩
  have hasks' : Asks asked disk (str "/" ++ str "IndexPage") := hasks
  have hs := (title_of_answered hasks' hpage (titled_htk _ _)).2
  exact absurd hs (by decide)

end MoonWiki
