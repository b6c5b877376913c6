import MoonWiki.ResponseHeader
import MoonWiki.SaveThenGet

/-! Raw files: what a GET request gets for a file, and in place of a special page that is none. -/
namespace MoonWiki
open Lua

variable {s : State} {special : SpecialPage} {text file : Bytes}

/-! ### Special pages that are none -/

/-- The status that a special page sets when it is none. -/
def SpecialPage.rejection : SpecialPage → Nat
  | .editPage => 400
  | .reverseLink => 404
  | _ => 200

theorem createSpecialEditPage_rejects (h : SpecialPage.editPage.isNil s.request s.disk = true) :
    createSpecialEditPage s = (.ok none, s.failed 400) := by
  rw [createSpecialEditPage, Run.bind_ok (Run.get_apply s)]
  rw [SpecialPage.isNil] at h
  cases hpage : s.request.parameters.get (str "page") with
  | none => rfl
  | some pageName =>
    rw [hpage] at h
    have hinvalid : isValidTitle pageName = false := by simpa using h
    simp only [hinvalid, Bool.not_false, ↓reduceIte]
    rfl

theorem isValidPage_apply (page : Option Bytes) (s : State) :
    ∃ opened, isValidPage page s =
      (.ok (page.any fun t => isValidTitle t && WikiStore.topicExists s.disk t),
        { s with opened }) := by
  cases page with
  | none => exact ⟨s.opened, rfl⟩
  | some t =>
    cases hv : isValidTitle t with
    | false => exact ⟨s.opened, by simp [isValidPage, hv]⟩
    | true => exact ⟨_, by simp [isValidPage, hv, WikiStore.loadPage, WikiStore.topicExists]; rfl⟩

theorem createSpecialReverseLink_rejects
    (h : SpecialPage.reverseLink.isNil s.request s.disk = true) :
    ∃ opened, createSpecialReverseLink s = (.ok none, { s.failed 404 with opened }) := by
  obtain ⟨opened, hvalid⟩ := isValidPage_apply (s.request.parameters.get (str "page")) s
  simp only [SpecialPage.isNil, Bool.not_eq_eq_eq_not, Bool.not_true] at h
  rw [h] at hvalid
  refine ⟨opened, ?_⟩
  rw [createSpecialReverseLink, Run.bind_ok (Run.get_apply s)]
  simp only [Run.bind_ok hvalid, Bool.not_false, ↓reduceIte]
  rfl

theorem processSpecialPage_rejects (h : special.isNil s.request s.disk = true) :
    ∃ opened, processSpecialPage special s =
      (.ok none, { s.failed special.rejection with opened }) := by
  cases special with
  | editPage => exact ⟨s.opened, createSpecialEditPage_rejects h⟩
  | reverseLink => exact createSpecialReverseLink_rejects h
  | indexPage => cases h
  | recentChanges => cases h
  | searchPage => cases h

/-! ### The fallback to a raw file -/

/-- The status with which the fallback starts. -/
def State.rawStatus (s : State) : Nat :=
  match specialPageCreator (urlTitle s.request.url) with
  | some special => special.rejection
  | none => s.response.status

theorem wikiPage_raw (h : servedRaw s.request s.disk = true) :
    ∃ opened, wikiPage s = (.ok none, { s.viewed.failed s.rawStatus with opened }) := by
  cases hv : isValidTitle (urlTitle s.request.url) with
  | false =>
    have hnone : specialPageCreator (urlTitle s.request.url) = none := by
      cases hs : specialPageCreator (urlTitle s.request.url) with
      | none => rfl
      | some special =>
        rw [isValidTitle_of_special hs] at hv
        cases hv
    refine ⟨s.opened, ?_⟩
    rw [wikiPage_invalid hv, State.rawStatus, hnone]
    rfl
  | true =>
    rw [servedRaw, hv, Bool.not_true, Bool.false_or] at h
    cases hs : specialPageCreator (urlTitle s.request.url) with
    | none => simp [hs] at h
    | some special =>
      rw [hs] at h
      rw [wikiPage_special hv hs, State.rawStatus, hs]
      exact processSpecialPage_rejects (s := s.viewed) h

theorem processRawFile_none {fileName : Bytes}
    (h : s.disk.read (serverConfig.rootDir ++ fileName) = none) :
    ∃ opened, processRawFile fileName s = (.ok none, { s.failed 404 with opened }) := by
  refine ⟨s.opened ++ [(.read, serverConfig.rootDir ++ fileName)], ?_⟩
  rw [processRawFile, Run.bind_ok (openFile_apply _ _ s), h]
  rfl

theorem processRawFile_some {fileName : Bytes}
    (h : s.disk.read (serverConfig.rootDir ++ fileName) = some file) :
    ∃ opened, processRawFile fileName s = (.ok (if file = [] then none else some file),
      { s with
        opened
        request := { s.request with contentType := some (checkContentType fileName) } }) := by
  refine ⟨s.opened ++ [(.read, serverConfig.rootDir ++ fileName)], ?_⟩
  rw [processRawFile, Run.bind_ok (openFile_apply _ _ s), h]
  rfl

theorem fallback_none {s₁ s₂ : State} (hpage : wikiPage s = (.ok none, s₁))
    (hraw : processRawFile s₁.request.url s₁ = (.ok none, s₂)) :
    handleGetRequest s = (.ok false, s₂) := by
  simp only [handleGetRequest, Run.bind_apply, hpage, Run.get_apply, hraw]
  rfl

theorem fallback_some {s₁ s₂ : State} (hpage : wikiPage s = (.ok none, s₁))
    (hraw : processRawFile s₁.request.url s₁ = (.ok (some file), s₂)) :
    handleGetRequest s = (.ok true, { s₂ with response := { s₂.response with
      header := createHttpHeader s₂.response.status s₂.response.contentType file.length
      content := file } }) := by
  simp only [handleGetRequest, Run.bind_apply, hpage, Run.get_apply, hraw]
  rfl

/-- No file: not found. -/
theorem handleGetRequest_missing (h : servedRaw s.request s.disk = true)
    (hfile : s.disk.read (serverConfig.rootDir ++ s.request.url) = none) :
    ∃ s', handleGetRequest s = (.ok false, s') ∧
      s'.response = { s.response with status := 404 } := by
  obtain ⟨opened, hpage⟩ := wikiPage_raw h
  obtain ⟨opened', hraw⟩ := processRawFile_none
    (s := { s.viewed.failed s.rawStatus with opened }) hfile
  exact ⟨_, fallback_none hpage hraw, rfl⟩

/-- An empty file is no page either. -/
theorem handleGetRequest_empty (h : servedRaw s.request s.disk = true)
    (hfile : s.disk.read (serverConfig.rootDir ++ s.request.url) = some []) :
    ∃ s', handleGetRequest s = (.ok false, s') ∧
      s'.response = { s.response with status := s.rawStatus } := by
  obtain ⟨opened, hpage⟩ := wikiPage_raw h
  obtain ⟨opened', hraw⟩ := processRawFile_some
    (s := { s.viewed.failed s.rawStatus with opened }) hfile
  exact ⟨_, fallback_none hpage hraw, rfl⟩

theorem handleGetRequest_file (h : servedRaw s.request s.disk = true)
    (hfile : s.disk.read (serverConfig.rootDir ++ s.request.url) = some file) (hne : file ≠ []) :
    ∃ s', handleGetRequest s = (.ok true, s') ∧
      s'.response = { s.response with
        status := s.rawStatus
        header := createHttpHeader s.rawStatus s.response.contentType file.length
        content := file } := by
  obtain ⟨opened, hpage⟩ := wikiPage_raw h
  obtain ⟨opened', hraw⟩ := processRawFile_some
    (s := { s.viewed.failed s.rawStatus with opened }) hfile
  rw [if_neg hne] at hraw
  exact ⟨_, fallback_some hpage hraw, rfl⟩

/-! ### Responses -/

/-- A response with this status, content type and body. -/
def responseText (status : Nat) (contentType body : Bytes) : Bytes :=
  createHttpHeader status contentType body.length ++ endOfLine ++ body

/-- Status line, content type and body can be read off. -/
theorem responseText_inj {status status' : Nat} {contentType contentType' body body' : Bytes}
    (hc : OneLine contentType) (hc' : OneLine contentType')
    (h : responseText status contentType body = responseText status' contentType' body') :
    statusLine status = statusLine status' ∧ contentType = contentType' ∧ body = body' := by
  have htype : OneLine (str "Content-Type:") := by decide
  have hlength : OneLine (str "Content-Length:") := by decide
  simp only [responseText, createHttpHeader_eq, endOfLine, List.append_assoc, List.cons_append,
    List.nil_append] at h
  obtain ⟨hstatus, _, h⟩ := (oneLine_statusLine status).unique (oneLine_statusLine status')
    (by decide) (by decide) h
  have hfields := List.append_cancel_left (List.cons.inj h).2
  simp only [List.cons.injEq, true_and, ← List.append_assoc] at hfields
  obtain ⟨hfield, _, h⟩ := (htype.append hc).unique (htype.append hc') (by decide) (by decide)
    hfields
  have hrest := (List.cons.inj h).2
  obtain ⟨_, _, h⟩ := (hlength.append (oneLine_decimal body.length)).unique
    (hlength.append (oneLine_decimal body'.length)) (by decide) (by decide) hrest
  simp only [List.cons.injEq, true_and] at h
  exact ⟨hstatus, List.append_cancel_left hfield, h⟩

/-- The request gets this response. -/
def Responds (sortByDate : DateSort) (sock : Socket) (disk : Disk) (text : Bytes) : Prop :=
  (processRequest sortByDate sock disk).1 = .ok (text, text.length)

/-- The page that is sent with an error status. -/
def errorPageHtml (status : Nat) : Bytes :=
  let statusString := (httpErrors status).getD []
  htk "HTML" []
    [createHtmlHeader statusString,
      htk "BODY" []
        [htk "H1" [] [str "Error&nbsp;" ++ decimal status], htk "P" [] [statusString]]]

theorem createHttpErrorPage_apply {status : Nat} (h : (httpErrors status).isSome) (s : State) :
    createHttpErrorPage status s = (.ok (errorPageHtml status), s) := by
  obtain ⟨statusString, htext⟩ := Option.isSome_iff_exists.mp h
  simp only [createHttpErrorPage, errorPageHtml, htext, Option.getD_some]
  rfl

variable {sortByDate : DateSort} {sock : Socket} {disk : Disk} {s' : State}

theorem responds_error (h : answer (WikiEngine.new sortByDate sock disk) = (.ok false, s'))
    (hstatus : (httpErrors s'.response.status).isSome) (hlocation : s'.response.location = none) :
    Responds sortByDate sock disk
      (responseText s'.response.status (str "text/html") (errorPageHtml s'.response.status)) := by
  have hend : str "\r\n" = endOfLine := by decide
  rw [Responds, processRequest_eq, Run.bind_ok h, respond]
  simp only [Bool.not_false, ↓reduceIte, prepareErrorResponse, Run.bind_apply, Run.get_apply,
    createHttpErrorPage_apply hstatus, hlocation, Run.modify_apply, Run.pure_apply, hend]
  rfl

theorem responds_page {contentType body : Bytes} {status : Nat}
    (h : answer (WikiEngine.new sortByDate sock disk) = (.ok true, s'))
    (hheader : s'.response.header = createHttpHeader status contentType body.length)
    (hcontent : s'.response.content = body) :
    Responds sortByDate sock disk (responseText status contentType body) := by
  have hend : str "\r\n" = endOfLine := by decide
  rw [Responds, processRequest_eq, Run.bind_ok h, respond, responseText, ← hheader, ← hcontent,
    ← hend]
  rfl

/-- Parsing alone leaves the response as it is in a new server object. -/
theorem parsed_response (hok : (parsed sock).1 = .ok true) : (parsed sock).2.response = {} := by
  rcases parseHttpRequest_cases (WikiEngine.new .insertion sock .empty) with
    ⟨⟨socket, request, status, _, hfalse⟩, _⟩ | ⟨socket, header, postData, _, _, hread⟩
  · rw [parsed, hfalse] at hok
    cases hok
  · rw [parsed, hread] at hok ⊢
    rcases hbody : readBody _ with ⟨result, s⟩
    rw [hbody] at hok
    exact (readBody_kept hbody).2 hok

theorem answer_get (hok : (parsed sock).1 = .ok true)
    (hget : upper (parsed sock).2.request.method = str "GET") :
    answer (WikiEngine.new sortByDate sock disk) =
      handleGetRequest ((parsed sock).2.on sortByDate disk [] {}) := by
  have hmethod : upper ((parsed sock).2.on sortByDate disk [] {}).request.method = str "GET" := hget
  rw [answer, Run.bind_apply, parseHttpRequest_new, hok]
  simp only [Bool.not_true, Bool.false_eq_true, ↓reduceIte, Run.bind_apply, Run.get_apply, hmethod,
    methodHandler]

theorem Responds.unique {text text' : Bytes} (h : Responds sortByDate sock disk text)
    (h' : Responds sortByDate sock disk text') : text = text' :=
  (Prod.mk.inj (Except.ok.inj (h.symm.trans h'))).1

theorem oneLine_html : OneLine (str "text/html") := by decide

theorem htk_ne_nil (field : String) (attrs : List (String × Bytes)) (contain : List Bytes) :
    htk field attrs contain ≠ [] := by
  rw [htk, show str "<" = [ch '<'] by decide]
  simp

theorem errorPageHtml_ne_nil (status : Nat) : errorPageHtml status ≠ [] := htk_ne_nil _ _ _

/-- A parsed GET request for a raw file, in the state in which it is handled. -/
structure AsksRaw (sock : Socket) (s : State) : Prop where
  ok : (parsed sock).1 = .ok true
  get : upper (parsed sock).2.request.method = str "GET"
  raw : servedRaw s.request s.disk = true
  state : s = (parsed sock).2.on s.sortByDate s.disk [] {}

namespace AsksRaw

theorem response (h : AsksRaw sock s) : s.response = {} := by
  rw [h.state]
  exact parsed_response h.ok

theorem answer_eq (h : AsksRaw sock s) :
    answer (WikiEngine.new s.sortByDate sock s.disk) = handleGetRequest s := by
  rw [answer_get h.ok h.get, ← h.state]

theorem known (h : AsksRaw sock s) : (httpErrors s.rawStatus).isSome := by
  rw [State.rawStatus, h.response]
  cases specialPageCreator (urlTitle s.request.url) with
  | none => decide
  | some special => cases special <;> decide

theorem file_missing (h : AsksRaw sock s)
    (hfile : s.disk.read (serverConfig.rootDir ++ s.request.url) = none) :
    Responds s.sortByDate sock s.disk
      (responseText 404 (str "text/html") (errorPageHtml 404)) := by
  obtain ⟨s', hrun, hs'⟩ := handleGetRequest_missing h.raw hfile
  rw [h.response] at hs'
  have hstatus : s'.response.status = 404 := by rw [hs']
  have herror := responds_error (h.answer_eq.trans hrun) (by rw [hstatus]; decide) (by rw [hs'])
  rwa [hstatus] at herror

theorem file_empty (h : AsksRaw sock s)
    (hfile : s.disk.read (serverConfig.rootDir ++ s.request.url) = some []) :
    Responds s.sortByDate sock s.disk
      (responseText s.rawStatus (str "text/html") (errorPageHtml s.rawStatus)) := by
  obtain ⟨s', hrun, hs'⟩ := handleGetRequest_empty h.raw hfile
  rw [h.response] at hs'
  have hstatus : s'.response.status = s.rawStatus := by rw [hs']
  have herror := responds_error (h.answer_eq.trans hrun) (by rw [hstatus]; exact h.known)
    (by rw [hs'])
  rwa [hstatus] at herror

theorem file_found (h : AsksRaw sock s)
    (hfile : s.disk.read (serverConfig.rootDir ++ s.request.url) = some text) (hne : text ≠ []) :
    Responds s.sortByDate sock s.disk (responseText s.rawStatus (str "text/html") text) := by
  obtain ⟨s', hrun, hs'⟩ := handleGetRequest_file h.raw hfile hne
  rw [h.response] at hs'
  exact responds_page (h.answer_eq.trans hrun) (by rw [hs']) (by rw [hs'])

end AsksRaw

/-! ### Files are served whole -/

/-- The file is the body of a response with the status 200. -/
def ServedWhole (sortByDate : DateSort) (sock : Socket) (disk : Disk) (file : Bytes) : Prop :=
  ∃ contentType, OneLine contentType ∧
    Responds sortByDate sock disk (responseText 200 contentType file)

theorem asksRaw_of_invalid (hok : (parsed sock).1 = .ok true)
    (hget : upper (parsed sock).2.request.method = str "GET")
    (hv : isValidTitle (urlTitle (parsed sock).2.request.url) = false) :
    AsksRaw sock ((parsed sock).2.on sortByDate disk [] {}) :=
  ⟨hok, hget, by simp [servedRaw, State.on, hv], rfl⟩

theorem rawStatus_invalid (hv : isValidTitle (urlTitle s.request.url) = false) :
    s.rawStatus = s.response.status := by
  rw [State.rawStatus]
  cases hs : specialPageCreator (urlTitle s.request.url) with
  | none => rfl
  | some special =>
    rw [isValidTitle_of_special hs] at hv
    cases hv

/-- For an empty file an error page is sent. -/
theorem AsksRaw.not_servedWhole (h : AsksRaw sock s)
    (hfile : s.disk.read (serverConfig.rootDir ++ s.request.url) = some []) :
    ¬ ServedWhole s.sortByDate sock s.disk [] := by
  rintro ⟨contentType, hc, hwhole⟩
  obtain ⟨_, _, hbody⟩ := responseText_inj hc oneLine_html (hwhole.unique (h.file_empty hfile))
  exact errorPageHtml_ne_nil _ hbody.symm

/-- A raw file is served whole unless it is empty. -/
theorem rawFile_whole_iff (hok : (parsed sock).1 = .ok true)
    (hget : upper (parsed sock).2.request.method = str "GET")
    (hv : isValidTitle (urlTitle (parsed sock).2.request.url) = false)
    (hfile : disk.read (serverConfig.rootDir ++ (parsed sock).2.request.url) = some file) :
    ServedWhole sortByDate sock disk file ↔ file ≠ [] := by
  have hasks : AsksRaw sock ((parsed sock).2.on sortByDate disk [] {}) :=
    asksRaw_of_invalid hok hget hv
  have hstatus : ((parsed sock).2.on sortByDate disk [] {}).rawStatus = 200 :=
    (rawStatus_invalid hv).trans (by rw [parsed_response hok])
  constructor
  · rintro hwhole rfl
    exact hasks.not_servedWhole hfile hwhole
  · intro hne
    have hserved := hasks.file_found hfile hne
    rw [hstatus] at hserved
    exact ⟨_, oneLine_html, hserved⟩

/-- A connection on which this URL is asked for. -/
def Socket.getting (url : String) : Socket :=
  ⟨[str "GET " ++ str url ++ str " HTTP/1.1\r\n\r\n"], by simp [show str "GET " ≠ [] by decide],
    fun n => some n.floor.toNat⟩

theorem rawFile_whole_logo :
    ServedWhole .insertion (.getting "/moon.jpg")
      (Disk.empty.put (str "htdocs/moon.jpg") [0, 255]) [0, 255] :=
  (rawFile_whole_iff (by decide) (by decide) (by decide) (by decide)).mpr (by decide)

/-- An empty style sheet is there, and it is not served. -/
theorem rawFile_whole_empty :
    (Disk.empty.put (str "htdocs/style.css") []).read (str "htdocs/style.css") = some [] ∧
      ¬ ServedWhole .insertion (.getting "/style.css")
        (Disk.empty.put (str "htdocs/style.css") []) [] := by
  have hasks : AsksRaw (.getting "/style.css") ((parsed (.getting "/style.css")).2.on .insertion
      (Disk.empty.put (str "htdocs/style.css") []) [] {}) :=
    asksRaw_of_invalid (by decide) (by decide) (by decide)
  exact ⟨by decide, hasks.not_servedWhole (by decide)⟩

/-! ### Content types of files -/

/-- What stands after the last dot of a name, if it has a dot. -/
def lastSuffix (name : Bytes) : Option Bytes :=
  if ch '.' ∈ name then some (name.rtakeWhile (· ≠ ch '.')) else none

/-- The content type of the suffix of a name. -/
def suffixType (name : Bytes) : Bytes :=
  (((lastSuffix name).filter fun suffix => suffix ≠ [] ∧ ∀ b ∈ suffix, isAlnum b).bind
    fun suffix => contentTypes.lookup suffix).getD (str "application/unknown")

theorem lastSuffix_eq {u v : Bytes} (hv : ch '.' ∉ v) :
    lastSuffix (u ++ ch '.' :: v) = some v := by
  have hpos : ∀ b ∈ v.reverse, decide (b ≠ ch '.') = true := by
    intro b hb
    exact decide_eq_true fun h => hv (h ▸ List.mem_reverse.mp hb)
  rw [lastSuffix, if_pos (by simp), List.rtakeWhile, List.reverse_append, List.reverse_cons,
    List.append_assoc, List.takeWhile_append_of_pos hpos]
  simp

theorem exists_lastDot {name : Bytes} (h : ch '.' ∈ name) :
    ∃ u v, name = u ++ ch '.' :: v ∧ ch '.' ∉ v := by
  obtain ⟨v, u, hsplit, hv⟩ := List.eq_append_cons_of_mem (List.mem_reverse.mpr h)
  refine ⟨u.reverse, v.reverse, ?_, fun h => hv (List.mem_reverse.mp h)⟩
  rw [← List.reverse_reverse name, hsplit]
  simp

theorem suffixType_dot {u v : Bytes} (hv : ch '.' ∉ v) (hne : v ≠ [])
    (halnum : ∀ b ∈ v, isAlnum b) :
    suffixType (u ++ ch '.' :: v) = (contentTypes.lookup v).getD (str "application/unknown") := by
  rw [suffixType, lastSuffix_eq hv, Option.filter_some, if_pos (by simpa [hne] using halnum)]
  rfl

/-- The names with the content type of a page. -/
theorem suffixType_html_iff (name : Bytes) :
    suffixType name = str "text/html" ↔ str ".htm" <:+ name ∨ str ".html" <:+ name := by
  constructor
  · intro h
    have hunknown : str "application/unknown" ≠ str "text/html" := by decide
    by_cases hdot : ch '.' ∈ name
    · obtain ⟨u, v, rfl, hv⟩ := exists_lastDot hdot
      rw [suffixType, lastSuffix_eq hv, Option.filter_some] at h
      split at h
      · cases hlookup : contentTypes.lookup v with
        | none => exact absurd (by simpa [hlookup] using h) hunknown
        | some contentType =>
          obtain ⟨l, l', htable, _⟩ := List.lookup_eq_some_iff.mp hlookup
          have hentry : (v, contentType) ∈ contentTypes := by rw [htable]; simp
          have hall : ∀ e ∈ contentTypes, e.2 = str "text/html" →
              e.1 = str "htm" ∨ e.1 = str "html" := by decide
          have htype : contentType = str "text/html" := by simpa [hlookup] using h
          rcases hall _ hentry htype with rfl | rfl
          · exact .inl ⟨u, rfl⟩
          · exact .inr ⟨u, rfl⟩
      · exact absurd h hunknown
    · rw [suffixType, lastSuffix, if_neg hdot] at h
      exact absurd h hunknown
  · rintro (⟨u, rfl⟩ | ⟨u, rfl⟩)
    · exact suffixType_dot (v := str "htm") (by decide) (by decide) (by decide)
    · exact suffixType_dot (v := str "html") (by decide) (by decide) (by decide)

/-- The file is served with the content type of its suffix. -/
def ServedTyped (sortByDate : DateSort) (sock : Socket) (disk : Disk) (name file : Bytes) : Prop :=
  ∃ status, Responds sortByDate sock disk (responseText status (suffixType name) file)

theorem oneLine_suffixType (name : Bytes) : OneLine (suffixType name) := by
  have hall : ∀ e ∈ contentTypes, OneLine e.2 := by decide
  have hunknown : OneLine (str "application/unknown") := by decide
  rw [suffixType]
  cases hsuffix : (lastSuffix name).filter fun suffix =>
      suffix ≠ [] ∧ ∀ b ∈ suffix, isAlnum b with
  | none => exact hunknown
  | some suffix =>
    cases hlookup : contentTypes.lookup suffix with
    | none => simpa [hlookup] using hunknown
    | some contentType =>
      obtain ⟨l, l', htable, _⟩ := List.lookup_eq_some_iff.mp hlookup
      have hentry : (suffix, contentType) ∈ contentTypes := by rw [htable]; simp
      simpa [hlookup] using hall _ hentry

theorem AsksRaw.servedTyped_iff (h : AsksRaw sock s)
    (hfile : s.disk.read (serverConfig.rootDir ++ s.request.url) = some file) (hne : file ≠ []) :
    ServedTyped s.sortByDate sock s.disk s.request.url file ↔
      str ".htm" <:+ s.request.url ∨ str ".html" <:+ s.request.url := by
  have hserved := h.file_found hfile hne
  rw [← suffixType_html_iff]
  constructor
  · rintro ⟨status, htyped⟩
    exact (responseText_inj (oneLine_suffixType _) oneLine_html (htyped.unique hserved)).2.1
  · intro htype
    exact ⟨s.rawStatus, htype ▸ hserved⟩

/-- The type of the file gets lost, and every file is sent as a page. -/
theorem rawFile_type_iff (hok : (parsed sock).1 = .ok true)
    (hget : upper (parsed sock).2.request.method = str "GET")
    (hraw : servedRaw (parsed sock).2.request disk = true)
    (hfile : disk.read (serverConfig.rootDir ++ (parsed sock).2.request.url) = some file)
    (hne : file ≠ []) :
    ServedTyped sortByDate sock disk (parsed sock).2.request.url file ↔
      str ".htm" <:+ (parsed sock).2.request.url ∨ str ".html" <:+ (parsed sock).2.request.url := by
  have hasks : AsksRaw sock ((parsed sock).2.on sortByDate disk [] {}) := ⟨hok, hget, hraw, rfl⟩
  exact hasks.servedTyped_iff hfile hne

theorem rawFile_type_html :
    ServedTyped .insertion (.getting "/a.html") (Disk.empty.put (str "htdocs/a.html") (str "x"))
      (parsed (.getting "/a.html")).2.request.url (str "x") :=
  (rawFile_type_iff (by decide) (by decide) (by decide) (by decide) (by decide)).mpr (by decide)

/-- A style sheet is sent as a page. -/
theorem rawFile_type_css :
    suffixType (str "/style.css") = str "text/css" ∧
      ¬ ServedTyped .insertion (.getting "/style.css")
        (Disk.empty.put (str "htdocs/style.css") (str "x")) (str "/style.css") (str "x") := by
  have hasks : AsksRaw (.getting "/style.css") ((parsed (.getting "/style.css")).2.on .insertion
      (Disk.empty.put (str "htdocs/style.css") (str "x")) [] {}) :=
    asksRaw_of_invalid (by decide) (by decide) (by decide)
  have hurl : (parsed (.getting "/style.css")).2.request.url = str "/style.css" := by decide
  refine ⟨by decide, fun h => ?_⟩
  have hsuffix := (hasks.servedTyped_iff (by decide) (by decide)).mp (hurl.symm ▸ h)
  revert hsuffix
  decide

/-! ### Rejected special pages -/

/-- No page and no file is sent, but an error page with this status. -/
def RejectedWith (sortByDate : DateSort) (sock : Socket) (disk : Disk) (status : Nat) : Prop :=
  (∃ s', answer (WikiEngine.new sortByDate sock disk) = (.ok false, s')) ∧
    Responds sortByDate sock disk
      (responseText status (str "text/html") (errorPageHtml status))

theorem rawStatus_special (hs : specialPageCreator (urlTitle s.request.url) = some special) :
    s.rawStatus = special.rejection := by
  rw [State.rawStatus, hs]

theorem asksRaw_of_special (hok : (parsed sock).1 = .ok true)
    (hget : upper (parsed sock).2.request.method = str "GET")
    (hs : specialPageCreator (urlTitle (parsed sock).2.request.url) = some special)
    (hnil : special.isNil (parsed sock).2.request disk = true) :
    AsksRaw sock ((parsed sock).2.on sortByDate disk [] {}) :=
  ⟨hok, hget, by simp [servedRaw, State.on, hs, hnil], rfl⟩

/-- Without a file the status is that of a missing page. -/
theorem AsksRaw.rejectedWith_missing (h : AsksRaw sock s)
    (hfile : s.disk.read (serverConfig.rootDir ++ s.request.url) = none) (status : Nat) :
    RejectedWith s.sortByDate sock s.disk status → statusLine status = statusLine 404 := by
  rintro ⟨_, hrejected⟩
  exact (responseText_inj oneLine_html oneLine_html (hrejected.unique (h.file_missing hfile))).1

theorem AsksRaw.rejectedWith_empty (h : AsksRaw sock s)
    (hfile : s.disk.read (serverConfig.rootDir ++ s.request.url) = some []) :
    RejectedWith s.sortByDate sock s.disk s.rawStatus := by
  obtain ⟨s', hrun, _⟩ := handleGetRequest_empty h.raw hfile
  exact ⟨⟨s', h.answer_eq.trans hrun⟩, h.file_empty hfile⟩

theorem AsksRaw.not_rejectedWith (h : AsksRaw sock s)
    (hfile : s.disk.read (serverConfig.rootDir ++ s.request.url) = some file) (hne : file ≠ [])
    (status : Nat) : ¬ RejectedWith s.sortByDate sock s.disk status := by
  rintro ⟨⟨s', hanswer⟩, _⟩
  obtain ⟨s₁, hrun, _⟩ := handleGetRequest_file h.raw hfile hne
  rw [h.answer_eq, hrun] at hanswer
  cases hanswer

/-- A rejected special page keeps its status when there is an empty file of its name, or when no
file is there and the status is that of a missing file anyway. -/
theorem rejectedPage_kept_iff (hok : (parsed sock).1 = .ok true)
    (hget : upper (parsed sock).2.request.method = str "GET")
    (hs : specialPageCreator (urlTitle (parsed sock).2.request.url) = some special)
    (hnil : special.isNil (parsed sock).2.request disk = true) :
    (∃ s', processSpecialPage special ((parsed sock).2.on sortByDate disk [] {}).viewed =
        (.ok none, s') ∧ s'.response.status = special.rejection) ∧
      (RejectedWith sortByDate sock disk special.rejection ↔
        disk.read (serverConfig.rootDir ++ (parsed sock).2.request.url) = some [] ∨
          special = .reverseLink ∧
            disk.read (serverConfig.rootDir ++ (parsed sock).2.request.url) = none) := by
  have hasks : AsksRaw sock ((parsed sock).2.on sortByDate disk [] {}) :=
    asksRaw_of_special hok hget hs hnil
  have hstatus : ((parsed sock).2.on sortByDate disk [] {}).rawStatus = special.rejection :=
    rawStatus_special hs
  refine ⟨?_, ?_⟩
  · obtain ⟨opened, hrun⟩ := processSpecialPage_rejects
      (s := ((parsed sock).2.on sortByDate disk [] {}).viewed) hnil
    exact ⟨_, hrun, rfl⟩
  rcases hfile : disk.read (serverConfig.rootDir ++ (parsed sock).2.request.url) with _ | file
  · simp only [reduceCtorEq, and_true, false_or]
    constructor
    · intro hrejected
      have hline := hasks.rejectedWith_missing hfile _ hrejected
      cases special with
      | reverseLink => rfl
      | editPage =>
        revert hline
        decide
      | indexPage => cases hnil
      | recentChanges => cases hnil
      | searchPage => cases hnil
    · rintro rfl
      obtain ⟨s', hrun, _⟩ := handleGetRequest_missing hasks.raw hfile
      exact ⟨⟨s', hasks.answer_eq.trans hrun⟩, hasks.file_missing hfile⟩
  · by_cases hne : file = []
    · subst hne
      have hempty := hasks.rejectedWith_empty hfile
      rw [hstatus] at hempty
      exact iff_of_true hempty (.inl rfl)
    · refine iff_of_false (hasks.not_rejectedWith hfile hne _) ?_
      simp [hne]

/-- Reverse links of a page that is missing. -/
theorem rejectedPage_kept_reverse :
    RejectedWith .insertion (.getting "/ReverseLink?page=FooBar") .empty
      SpecialPage.reverseLink.rejection :=
  (rejectedPage_kept_iff (by decide) (by decide) (by decide)
    (by decide)).2.mpr (by decide)

/-- The edit page without a page to edit is not found instead of being a bad request. -/
theorem rejectedPage_lost :
    createSpecialEditPage ((parsed (.getting "/EditPage")).2.on .insertion .empty [] {}) =
        (.ok none, ((parsed (.getting "/EditPage")).2.on .insertion .empty [] {}).failed 400) ∧
      ¬ RejectedWith .insertion (.getting "/EditPage") .empty 400 := by
  have hs : specialPageCreator (urlTitle (parsed (.getting "/EditPage")).2.request.url) =
      some .editPage := by decide
  have hasks : AsksRaw (.getting "/EditPage")
      ((parsed (.getting "/EditPage")).2.on .insertion .empty [] {}) :=
    asksRaw_of_special (by decide) (by decide) hs (by decide)
  refine ⟨createSpecialEditPage_rejects (by decide), fun h => ?_⟩
  have hline := hasks.rejectedWith_missing (by decide) 400 h
  revert hline
  decide

end MoonWiki
