import MoonWiki.Server

/-! Which files a GET request opens for reading. -/
namespace MoonWiki
open Lua

variable {α β : Type}

/-! ### The ways through a GET request -/

/-- The formatter class that the parameter `view` asks for. -/
def Request.view (r : Request) : FormatterClass :=
  if r.parameters.get (str "view") = some (str "printable") then .printable else .wiki

/-- The state in which `processRequest` looks at the URL. -/
def State.viewed (s : State) : State := { s with formatter := s.request.view }

variable {s : State} {title content : Bytes}

theorem setFormatter_apply (s : State) : setFormatter s = (.ok (), s.viewed) := rfl

@[simp] theorem viewed_request (s : State) : s.viewed.request = s.request := rfl
@[simp] theorem viewed_disk (s : State) : s.viewed.disk = s.disk := rfl
@[simp] theorem viewed_opened (s : State) : s.viewed.opened = s.opened := rfl
@[simp] theorem viewed_formatter (s : State) : s.viewed.formatter = s.request.view := rfl

@[simp] theorem topicExists_apply (t : Bytes) (s : State) :
    topicExists t s = (.ok (WikiStore.loadPage s.disk t).isSome,
      { s with opened := s.opened ++ [(.read, pagePath t)] }) := rfl

@[simp] theorem loadPage_apply (t : Bytes) (s : State) :
    loadPage (some t) s = (.ok (WikiStore.loadPage s.disk t),
      { s with opened := s.opened ++ [(.read, pagePath t)] }) := rfl

theorem wikiPage_invalid (hv : isValidTitle (urlTitle s.request.url) = false) :
    wikiPage s = (.ok none, s.viewed) := by
  rw [wikiPage, Run.bind_ok (setFormatter_apply s), Run.bind_apply, Run.get_apply]
  simp [hv]

theorem wikiPage_special {special : SpecialPage}
    (hv : isValidTitle (urlTitle s.request.url) = true)
    (hs : specialPageCreator (urlTitle s.request.url) = some special) :
    wikiPage s = processSpecialPage special s.viewed := by
  rw [wikiPage, Run.bind_ok (setFormatter_apply s), Run.bind_apply, Run.get_apply]
  simp [hv, hs]

theorem wikiPage_missing (hv : isValidTitle (urlTitle s.request.url) = true)
    (hs : specialPageCreator (urlTitle s.request.url) = none)
    (h : WikiStore.loadPage s.disk (urlTitle s.request.url) = none) :
    wikiPage s =
      (.ok (some (createHtmlPage (str "Not found " ++ urlTitle s.request.url)
        (notFoundPageTemplate s.request.view (urlTitle s.request.url)))),
        { s.viewed with
          opened := s.opened ++ [(.read, pagePath (urlTitle s.request.url))] }) := by
  rw [wikiPage, Run.bind_ok (setFormatter_apply s), Run.bind_apply, Run.get_apply]
  simp [hv, hs, h, Run.bind_apply]

theorem wikiPage_found {body : Bytes} {st : FormatterState}
    (hv : isValidTitle (urlTitle s.request.url) = true)
    (hs : specialPageCreator (urlTitle s.request.url) = none)
    (h : WikiStore.loadPage s.disk (urlTitle s.request.url) = some content)
    (hbody : wikiPageTemplate (formatterEnv s.request.view s.disk) (urlTitle s.request.url) content
      { s.formatterState with probed := [] } = (body, st)) :
    wikiPage s =
      (.ok (some (createHtmlPage (urlTitle s.request.url) body)),
        { s.viewed with
          formatterState := st
          opened := s.opened ++ [(.read, pagePath (urlTitle s.request.url)),
            (.read, pagePath (urlTitle s.request.url))] ++
            st.probed.map fun t => (.read, pagePath t) }) := by
  have hstate : s.viewed.formatterState = s.formatterState := rfl
  rw [wikiPage, Run.bind_ok (setFormatter_apply s), Run.bind_apply, Run.get_apply]
  simp [hv, hs, h, Run.bind_apply, withFormatter, hstate, hbody]

/-! ### Special pages that are none -/

/-- The action never returns `nil`. -/
def NeverNil (x : Action (Option β)) : Prop := ∀ s, (x s).1 ≠ .ok none

theorem NeverNil.bind {x : Action α} {f : α → Action (Option β)} (hf : ∀ a, NeverNil (f a)) :
    NeverNil (x >>= f) := by
  intro s
  rw [Run.bind_apply]
  rcases x s with ⟨e | a, s'⟩
  · simp
  · exact hf a s'

theorem NeverNil.pure (b : β) : NeverNil (Pure.pure (some b) : Action (Option β)) := by
  intro s
  simp

theorem NeverNil.error (e : LuaError) : NeverNil (Run.error e : Action (Option β)) := by
  intro s
  simp

/-- The parameters with which a special page is no page: there is no page to edit, or none to
look for. -/
def SpecialPage.isNil (r : Request) (d : Disk) : SpecialPage → Bool
  | .editPage => !(r.parameters.get (str "page")).any isValidTitle
  | .reverseLink =>
    !(r.parameters.get (str "page")).any fun t => isValidTitle t && WikiStore.topicExists d t
  | _ => false

theorem createSpecialEditPage_nil_iff (s : State) :
    (createSpecialEditPage s).1 = .ok none ↔
      SpecialPage.editPage.isNil s.request s.disk = true := by
  simp only [createSpecialEditPage, Run.bind_apply, Run.get_apply, SpecialPage.isNil]
  cases s.request.parameters.get (str "page") with
  | none => simp [Run.bind_apply]
  | some pageName =>
    cases hv : isValidTitle pageName with
    | false => simp [hv, Run.bind_apply]
    | true => simp [hv, Run.bind_apply]

theorem isValidPage_result (page : Option Bytes) (s : State) :
    (isValidPage page s).1 =
      .ok (page.any fun t => isValidTitle t && WikiStore.topicExists s.disk t) := by
  cases page with
  | none => rfl
  | some t =>
    cases hv : isValidTitle t with
    | false => simp [isValidPage, hv]
    | true => simp [isValidPage, hv, WikiStore.loadPage, WikiStore.topicExists]

theorem createSpecialReverseLink_nil_iff (s : State) :
    (createSpecialReverseLink s).1 = .ok none ↔
      SpecialPage.reverseLink.isNil s.request s.disk = true := by
  have hresult := isValidPage_result (s.request.parameters.get (str "page")) s
  simp only [createSpecialReverseLink, Run.bind_apply, Run.get_apply, SpecialPage.isNil]
  rcases hrun : isValidPage (s.request.parameters.get (str "page")) s with ⟨e | valid, s'⟩
  · rw [hrun] at hresult
    cases hresult
  · rw [hrun] at hresult
    obtain rfl := Except.ok.inj hresult
    dsimp only
    cases (s.request.parameters.get (str "page")).any
        fun t => isValidTitle t && WikiStore.topicExists s.disk t with
    | false => simp [Run.bind_apply]
    | true =>
      simp only [Bool.not_true, Bool.false_eq_true, ↓reduceIte, iff_false]
      cases parse (str "[^%w]" ++ (s.request.parameters.get (str "page")).getD [] ++
          str "[^%w]") with
      | none => exact NeverNil.error _ s'
      | some pattern => exact NeverNil.bind (fun _ => .bind fun _ => .bind fun _ => .pure _) s'

theorem processSpecialPage_nil_iff (special : SpecialPage) (s : State) :
    (processSpecialPage special s).1 = .ok none ↔ special.isNil s.request s.disk = true := by
  cases special with
  | editPage => exact createSpecialEditPage_nil_iff s
  | reverseLink => exact createSpecialReverseLink_nil_iff s
  | indexPage =>
    have hnever : NeverNil createSpecialIndexPage :=
      .bind fun _ => .bind fun _ => .bind fun _ => .pure _
    exact iff_of_false (hnever s) (by simp [SpecialPage.isNil])
  | recentChanges =>
    have hnever : NeverNil createSpecialRecentChanges :=
      .bind fun _ => .bind fun _ => .bind fun _ => .pure _
    exact iff_of_false (hnever s) (by simp [SpecialPage.isNil])
  | searchPage =>
    have hnever : NeverNil createSpecialSearchPage := .bind fun _ => .pure _
    exact iff_of_false (hnever s) (by simp [SpecialPage.isNil])

/-! ### The files of a GET request -/

/-- Whether the URL is served as a raw file: it names no page, or a special page that is none. -/
def servedRaw (r : Request) (d : Disk) : Bool :=
  !isValidTitle (urlTitle r.url) ||
    (specialPageCreator (urlTitle r.url)).any fun special => special.isNil r d

/-- The topics that rendering the page of the URL looks up. -/
def linkTopics (r : Request) (d : Disk) : List Bytes :=
  if isValidTitle (urlTitle r.url) ∧ specialPageCreator (urlTitle r.url) = none then
    match WikiStore.loadPage d (urlTitle r.url) with
    | none => []
    | some content =>
      (wikiPageTemplate (formatterEnv r.view d) (urlTitle r.url) content {}).2.probed
  else []

theorem processRawFile_opened (fileName : Bytes) (s : State) :
    (processRawFile fileName s).2.opened =
      s.opened ++ [(.read, serverConfig.rootDir ++ fileName)] := by
  rw [processRawFile, Run.bind_apply, openFile_apply]
  cases s.disk.read (serverConfig.rootDir ++ fileName) with
  | none => rfl
  | some file => rfl

theorem handleGetRequest_opened (s : State) :
    (handleGetRequest s).2.opened =
      match (wikiPage s).1 with
      | .ok none =>
        (wikiPage s).2.opened ++ [(.read, serverConfig.rootDir ++ s.request.url)]
      | _ => (wikiPage s).2.opened := by
  have hurl := (wikiPage_reads s).url
  rw [handleGetRequest, Run.bind_apply]
  rcases hpage : wikiPage s with ⟨e | page, s'⟩
  · rfl
  · cases page with
    | some page => rfl
    | none =>
      have hread := processRawFile_opened s'.request.url s'
      rw [hpage] at hurl
      change s'.request.url = s.request.url at hurl
      simp only [Run.bind_apply, Run.get_apply]
      rw [← hurl, ← hread]
      rcases processRawFile s'.request.url s' with ⟨e | page, s''⟩
      · rfl
      · cases page <;> rfl

theorem PlainPage.inside {path : Bytes} (h : PlainPage path) (cwd : List Bytes) :
    Inside cwd path := by
  obtain ⟨t, ht, rfl⟩ := h
  exact inside_pagePath ht cwd

/-- The files of a request handled in a new server object: pages of the root directory, the raw
file, and the topics of the links. -/
theorem handleGetRequest_reads_iff {s : State} (hopened : s.opened = [])
    (hst : s.formatterState = {}) :
    (∀ path, (Mode.read, path) ∈ (handleGetRequest s).2.opened → Inside s.disk.cwd path) ↔
      (servedRaw s.request s.disk = true →
        Inside s.disk.cwd (serverConfig.rootDir ++ s.request.url)) ∧
      ∀ t ∈ linkTopics s.request s.disk, Inside s.disk.cwd (pagePath t) := by
  rw [handleGetRequest_opened]
  cases hv : isValidTitle (urlTitle s.request.url) with
  | false =>
    rw [wikiPage_invalid hv]
    simp [servedRaw, linkTopics, hv, hopened]
  | true =>
    have hpage : Inside s.disk.cwd (pagePath (urlTitle s.request.url)) :=
      inside_pagePath (isValidTitle_iff.mp hv).alnum _
    cases hs : specialPageCreator (urlTitle s.request.url) with
    | some special =>
      obtain ⟨paths, hpaths, hplain⟩ := (processSpecialPage_reads special s.viewed).opened
      have hnil := processSpecialPage_nil_iff special s.viewed
      rw [wikiPage_special hv hs]
      simp only [viewed_opened, hopened, List.nil_append] at hpaths
      have hinside : ∀ path, (Mode.read, path) ∈ (processSpecialPage special s.viewed).2.opened →
          Inside s.disk.cwd path := by
        intro path hpath
        rw [hpaths] at hpath
        obtain ⟨p, hp, heq⟩ := List.mem_map.mp hpath
        obtain rfl := (Prod.mk.inj heq).2
        exact (hplain p hp).inside _
      have hraw : servedRaw s.request s.disk = special.isNil s.request s.disk := by
        simp [servedRaw, hv, hs]
      have hlinks : linkTopics s.request s.disk = [] := by simp [linkTopics, hs]
      have hiff : ((∀ path, (Mode.read, path) ∈ (processSpecialPage special s.viewed).2.opened ++
            [(.read, serverConfig.rootDir ++ s.request.url)] → Inside s.disk.cwd path) ↔
          Inside s.disk.cwd (serverConfig.rootDir ++ s.request.url)) := by
        constructor
        · exact fun h => h _ (by simp)
        · intro hurl path hpath
          rcases List.mem_append.mp hpath with hpath | hpath
          · exact hinside path hpath
          · have heq := List.mem_singleton.mp hpath
            exact (Prod.mk.inj heq).2 ▸ hurl
      rw [hraw, hlinks]
      by_cases hres : (processSpecialPage special s.viewed).1 = .ok none
      · have hisNil : special.isNil s.request s.disk = true := hnil.mp hres
        simp only [hres, hisNil, hiff]
        simp
      · have hisNil : special.isNil s.request s.disk = false :=
          Bool.eq_false_iff.mpr fun h => hres (hnil.mpr h)
        rcases hrun : (processSpecialPage special s.viewed).1 with e | page
        · simpa [hisNil] using hinside
        · cases page with
          | none => exact absurd hrun hres
          | some page => simpa [hisNil] using hinside
    | none =>
      cases hload : WikiStore.loadPage s.disk (urlTitle s.request.url) with
      | none =>
        rw [wikiPage_missing hv hs hload]
        simp [servedRaw, linkTopics, hv, hs, hload, hopened, hpage]
      | some content =>
        rcases hbody : wikiPageTemplate (formatterEnv s.request.view s.disk)
          (urlTitle s.request.url) content {} with ⟨body, st⟩
        have hbody' : wikiPageTemplate (formatterEnv s.request.view s.disk)
            (urlTitle s.request.url) content { s.formatterState with probed := [] } =
              (body, st) := by
          rw [hst]
          exact hbody
        rw [wikiPage_found hv hs hload hbody']
        simp [servedRaw, linkTopics, hv, hs, hload, hopened, hpage, hbody]

/-- Every file opened for a GET request lies inside the root directory exactly when the URL,
if it is served as a raw file, and the topics of the links do. -/
theorem processRequest_reads_iff {sock : Socket} (hok : (parsed sock).1 = .ok true)
    (hget : upper (parsed sock).2.request.method = str "GET") (sortByDate : DateSort)
    (disk : Disk) :
    (∀ path, (Mode.read, path) ∈ (processRequest sortByDate sock disk).2.opened →
      Inside disk.cwd path) ↔
      (servedRaw (parsed sock).2.request disk = true →
        Inside disk.cwd (serverConfig.rootDir ++ (parsed sock).2.request.url)) ∧
      ∀ t ∈ linkTopics (parsed sock).2.request disk, Inside disk.cwd (pagePath t) := by
  have hfiles := (processRequest_files sortByDate sock disk).1
  have hmethod : upper ((parsed sock).2.on sortByDate disk [] {}).request.method = str "GET" := hget
  simp only [hok, hmethod, methodHandler, ↓reduceIte] at hfiles
  rw [hfiles]
  exact handleGetRequest_reads_iff (s := (parsed sock).2.on sortByDate disk [] {}) rfl rfl

theorem processRequest_reads_logo :
    let sock : Socket := ⟨[str "GET /moon.jpg HTTP/1.1\r\n\r\n"], by decide,
      fun n => some n.floor.toNat⟩
    ∀ path, (Mode.read, path) ∈ (processRequest .insertion sock .empty).2.opened →
      Inside Disk.empty.cwd path := by
  intro sock
  refine (processRequest_reads_iff (by decide) (by decide) .insertion .empty).mpr ?_
  exact ⟨fun _ => by decide, by decide⟩

/-- A URL that climbs out of the root directory. -/
theorem processRequest_reads_outside :
    let sock : Socket := ⟨[str "GET /../x HTTP/1.1\r\n\r\n"], by decide,
      fun n => some n.floor.toNat⟩
    (Mode.read, str "htdocs/../x") ∈ (processRequest .insertion sock .empty).2.opened ∧
      ¬ Inside Disk.empty.cwd (str "htdocs/../x") := by
  intro sock
  exact ⟨by decide, by decide⟩

end MoonWiki
