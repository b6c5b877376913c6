import MoonWiki.HttpServer
import MoonWiki.Templates

/-! `WikiEngine.lua`: wiki pages, special pages and the handlers of the HTTP methods, and
`processRequest` of `main.lua`. -/
namespace MoonWiki
open Lua

/-! ### The store and the formatter of the engine -/

def topicExists (theTopic : Bytes) : Action Bool := do
  return (← openFile .read (pagePath theTopic)).isSome

/-- The title may be `nil`, which cannot be concatenated. -/
def loadPage : Option Bytes → Action (Option Bytes)
  | none => Run.error .concatNil
  | some title => openFile .read (pagePath title)

def savePage (title content : Bytes) : Action Bool := fun s =>
  let (saved, disk) := WikiStore.savePage s.disk title content
  (.ok saved, { s with disk, opened := s.opened ++ [(.write, pagePath title)] })

/-- The methods `createSpecial...` of the engine. -/
inductive SpecialPage
  | editPage
  | indexPage
  | recentChanges
  | searchPage
  | reverseLink
  deriving DecidableEq, Repr

def specialPageCreator (title : Bytes) : Option SpecialPage :=
  [(str "EditPage", SpecialPage.editPage), (str "IndexPage", .indexPage),
    (str "RecentChanges", .recentChanges), (str "SearchPage", .searchPage),
    (str "ReverseLink", .reverseLink)].lookup title

def isSpecialPage (title : Bytes) : Bool := (specialPageCreator title).isSome

def formatterEnv (cls : FormatterClass) (d : Disk) : FormatterEnv :=
  ⟨cls, isSpecialPage, WikiStore.topicExists d⟩

/-- Runs a method of the formatter; the topics it looks up are opened in the store. -/
def withFormatter {α : Type} (f : FormatterEnv → FormatterState → α × FormatterState) :
    Action α := fun s =>
  let (a, st) := f (formatterEnv s.formatter s.disk) { s.formatterState with probed := [] }
  (.ok a, { s with
    formatterState := st
    opened := s.opened ++ st.probed.map fun t => (.read, pagePath t) })

def setFormatter : Action Unit :=
  Run.modify fun s =>
    { s with
      formatter := if s.request.parameters.get (str "view") = some (str "printable")
        then .printable else .wiki }

def createHtmlPage (title body : Bytes) : Bytes := htk "HTML" [] [createHtmlHeader title, body]

def isValidPage : Option Bytes → Action Bool
  | none => return false
  | some title => if isValidTitle title then topicExists title else return false

def getNameWithoutSuffix (fileName : Bytes) : Option Bytes := capture? (pat "(%w+).%w+$") fileName

def pageFiles (d : Disk) : List FileEntry :=
  d.listing (serverConfig.rootDir ++ str "/*" ++ serverConfig.suffix)

/-! ### Special pages -/

def escapeHtml (content : Bytes) : Bytes :=
  let content := gsubStr (pat "&") (str "&amp;") content
  let content := gsubStr (pat "<") (str "&lt;") content
  gsubStr (pat ">") (str "&gt;") content

def submitButton (value : String) : Bytes :=
  htk "INPUT" [("type", str "submit"), ("name", str "action"), ("value", str value)] []

def textArea (content : Bytes) : Bytes :=
  htk "TEXTAREA" [("name", str "text"), ("wrap", str "virtual"), ("rows", str "30")] [content]

def editPageHtml (cls : FormatterClass) (pageName content : Bytes) : Bytes :=
  let nbsp := str "&nbsp;"
  let actions := htk "P" []
    [submitButton " Save ", nbsp, submitButton " Checkpoint ", nbsp,
      htk "INPUT" [("type", str "reset"), ("value", str " Reset ")] [], nbsp,
      submitButton " Cancel Editing ", nbsp]
  htk "HTML" []
    [createHtmlHeader (str "Edit " ++ pageName),
      htk "BODY" []
        [htk "DIV" [("class", str "twikiEditPage")]
          [htk "FORM" [("method", str "POST"), ("action", str "/")]
            [pageHeaderTable cls pageName actions false,
              htk "BLOCKQUOTE" [] [textArea (escapeHtml content)],
              htk "INPUT"
                [("type", str "hidden"), ("name", str "page"), ("value", pageName)] []]]]]

def createSpecialEditPage : Action (Option Bytes) := do
  match (← Run.get).request.parameters.get (str "page") with
  | none => setStatus 400; return none
  | some pageName =>
    if !isValidTitle pageName then setStatus 400; return none
    else
      let content ← loadPage (some pageName)
      return some (editPageHtml (← Run.get).formatter pageName (content.getD []))

/-- The title of a listed file. A name without a suffix has none, and `isValidTitle` fails on
`nil`. -/
def listedTitle (file : FileEntry) : Action (Option Bytes) :=
  match getNameWithoutSuffix file.name with
  | none => Run.error .badArgument
  | some pageTitle => return if isValidTitle pageTitle then some pageTitle else none

def indexTitles : List FileEntry → Action (List Bytes)
  | [] => return []
  | file :: files => do
    let pageTitle ← listedTitle file
    return pageTitle.toList ++ (← indexTitles files)

/-- `table.sort` of page titles. -/
def sortTitles (pages : List Bytes) : List Bytes := pages.insertionSort (· ≤ ·)

def createSpecialIndexPage : Action (Option Bytes) := do
  let pages ← indexTitles (pageFiles (← Run.get).disk)
  let body ← withFormatter fun env => specialIndexPageTemplate env (sortTitles pages)
  return some (createHtmlPage (str "Index page") body)

/-- The loop over the sorted files from number `i` on. -/
def recentTitles : Nat → List FileEntry → Action (List (Bytes × Bytes))
  | _, [] => return []
  | i, file :: files => do
    let pageTitle ← listedTitle file
    let entries := pageTitle.toList.map fun t => (file.date, t)
    if i = serverConfig.recentChangesListSize then return entries
    else return entries ++ (← recentTitles (i + 1) files)

def createSpecialRecentChanges : Action (Option Bytes) := do
  let s ← Run.get
  let pages ← recentTitles 1 (s.sortByDate.run (pageFiles s.disk))
  let body ← withFormatter fun env => specialRecentChangesTemplate env pages
  return some (createHtmlPage (str "Recent changes") body)

def radioButton (value : String) (checked : List (String × Bytes)) : Bytes :=
  htk "INPUT"
    ([("type", str "radio"), ("class", str "twikiRadioButton"), ("name", str "scope"),
      ("value", str value)] ++ checked) []

def searchPageHtml (cls : FormatterClass) (search : Bytes) : Bytes :=
  let row (first second : List Bytes) : Bytes := htk "TR" [] [htk "TD" [] first, htk "TD" [] second]
  let table := htk "TABLE"
    [("cellspacing", str "2"), ("cellpadding", str "0"), ("border", str "0")]
    [row [str "Find text:"]
      [htk "INPUT"
        [("type", str "text"), ("name", str "search"), ("size", str "40"), ("value", search)] [],
        str "&nbsp;", submitButton " Search "],
      row [str "Search in:"] [radioButton "text" [("checked", str "checked")], str "Text body"],
      row [] [radioButton "topictitle" [], str "Topic title"],
      row [] [radioButton "both" [], str "Both body and title"]]
  htk "HTML" []
    [createHtmlHeader (str "Search"),
      htk "BODY" []
        [specialPageHeader cls (str "Search"),
          htk "FORM" [("method", str "POST"), ("action", str "SearchPage")] [table],
          htk "HR" [] [], []]]

def createSpecialSearchPage : Action (Option Bytes) := do
  let s ← Run.get
  return some (searchPageHtml s.formatter ((s.request.parameters.get (str "search")).getD []))

/-- The listed pages whose text has the name between two bytes that are not alphanumeric. -/
def linkingTitles (pattern : Pattern) : List FileEntry → Action (List Bytes)
  | [] => return []
  | file :: files => do
    let pageTitle := getNameWithoutSuffix file.name
    let content ← loadPage pageTitle
    let here := match content with
      | some content => if found pattern content then pageTitle.toList else []
      | none => []
    return here ++ (← linkingTitles pattern files)

def createSpecialReverseLink : Action (Option Bytes) := do
  let pageName := (← Run.get).request.parameters.get (str "page")
  if !(← isValidPage pageName) then setStatus 404; return none
  else
    let pageName := pageName.getD []
    match parse (str "[^%w]" ++ pageName ++ str "[^%w]") with
    | none => Run.error .malformedPattern
    | some pattern =>
      let pages := sortTitles (← linkingTitles pattern (pageFiles (← Run.get).disk))
      let body ← withFormatter fun env =>
        specialReverseLinkTemplate env pageName (if pages = [] then none else some pages)
      return some (createHtmlPage (str "Reverse links for " ++ pageName) body)

def processSpecialPage : SpecialPage → Action (Option Bytes)
  | .editPage => createSpecialEditPage
  | .indexPage => createSpecialIndexPage
  | .recentChanges => createSpecialRecentChanges
  | .searchPage => createSpecialSearchPage
  | .reverseLink => createSpecialReverseLink

/-! ### GET -/

/-- The title a URL names; the start page is the default. -/
def urlTitle (url : Bytes) : Bytes := if url = str "/" then str "StartPage" else url.tail

/-- `WikiEngine.methods:processRequest`; `none` is no wiki page. -/
def wikiPage : Action (Option Bytes) := do
  setFormatter
  let url := urlTitle (← Run.get).request.url
  if !isValidTitle url then return none
  else match specialPageCreator url with
    | some special => processSpecialPage special
    | none =>
      if ← topicExists url then
        let content ← loadPage (some url)
        let body ← withFormatter fun env => wikiPageTemplate env url (content.getD [])
        return some (createHtmlPage url body)
      else
        return some (createHtmlPage (str "Not found " ++ url)
          (notFoundPageTemplate (← Run.get).formatter url))

def handleGetRequest : Action Bool := do
  let page ← do
    match ← wikiPage with
    | some page => pure (some page)
    | none => processRawFile (← Run.get).request.url
  match page with
  | none => return false
  | some page =>
    Run.modify fun s =>
      { s with response := { s.response with
        header := createHttpHeader s.response.status s.response.contentType page.length
        content := page } }
    return true

/-! ### POST and HEAD -/

def doSaveAfterEditing : Action Bool := do
  let form := (← Run.get).request.form
  match form.get (str "text"), form.get (str "page") with
  | some content, some title =>
    if ← savePage title content then return true
    else setStatus 500; return false
  | _, _ => setStatus 400; return false

/-- A form field that is concatenated without a check. -/
def formField (name : String) : Action Bytes := do
  match (← Run.get).request.form.get (str name) with
  | some value => return value
  | none => Run.error .concatNil

def postHandlerSave : Action Bool := do
  if !(← doSaveAfterEditing) then return false
  else redirectToPage (str "/" ++ (← formField "page"))

def postHandlerCheckpoint : Action Bool := do
  if !(← doSaveAfterEditing) then return false
  else redirectToPage (str "EditPage?page=" ++ (← formField "page"))

def postHandlerCancelEditing : Action Bool := do
  redirectToPage (str "/" ++ (← formField "page"))

def postHandlerSearch : Action Bool := do
  let search := ((← Run.get).request.form.get (str "search")).getD []
  redirectToPage (str "SearchPage?search=" ++ escapeHttp search)

def postActionHandler (action : Bytes) : Option (Action Bool) :=
  if action = str "Save" then some postHandlerSave
  else if action = str "Checkpoint" then some postHandlerCheckpoint
  else if action = str "CancelEditing" then some postHandlerCancelEditing
  else if action = str "Search" then some postHandlerSearch
  else none

/-- `string.gsub` runs before the check for `nil`. -/
def handlePostRequest : Action Bool := do
  match (← Run.get).request.form.get (str "action") with
  | none => Run.error .badArgument
  | some action =>
    match postActionHandler (gsubStr (pat " ") [] action) with
    | none => setStatus 400; return false
    | some handler => handler

/-- `processGetRequest` is no method of any class. -/
def handleHeadRequest : Action Bool := Run.error .callNil

/-- The dispatch in `handleRequest`. -/
def methodHandler (httpMethod : Bytes) : Action Bool :=
  if httpMethod = str "GET" then handleGetRequest
  else if httpMethod = str "POST" then handlePostRequest
  else if httpMethod = str "HEAD" then handleHeadRequest
  else Run.error .assertion

def handleRequest : Action Bytes := do
  if !(← parseHttpRequest) then prepareErrorResponse
  else
    let result ← methodHandler (upper (← Run.get).request.method)
    if !result then prepareErrorResponse
  let response := (← Run.get).response
  return response.header ++ str "\r\n" ++ response.content

/-- The server object of one request, with its connection and the disk. -/
def WikiEngine.new (sortByDate : DateSort) (socket : Socket) (disk : Disk) : State :=
  { sortByDate, socket, disk }

/-- `processRequest` of `main.lua`: the response and its length. -/
def processRequest (sortByDate : DateSort) (socket : Socket) (disk : Disk) :
    Except LuaError (Bytes × Nat) × State :=
  (do let response ← handleRequest; return (response, response.length) : Action _)
    (WikiEngine.new sortByDate socket disk)

end MoonWiki
