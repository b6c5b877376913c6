import MoonWiki.Config
import MoonWiki.WikiFormatter

/-! The page templates of `WikiFormatter.lua`, `PrintableFormatter.lua` and
`ExportFormatter.lua`. -/
namespace MoonWiki
open Lua

def menuSeparator : Bytes := str "&nbsp;|&nbsp;"
def menuStart : Bytes := str "&nbsp;(&nbsp;"
def menuEnd : Bytes := str "&nbsp;)&nbsp;"

def pageHeaderTemplate (cls : FormatterClass) (title additions : Bytes) : Bytes :=
  htk "TABLE"
    [("width", str "100%"), ("cellspacing", str "0"), ("cellpadding", str "0"),
      ("border", str "0")]
    [htk "TR" []
      [htk "TD"
        [("rowspan", str "2"), ("align", str "center"), ("valign", str "bottom"),
          ("width", str "0%")]
        [existentPageLink cls (str "StartPage")
          (htk "IMG" [("border", str "0"), ("src", serverConfig.logoFile)] [])],
        htk "TD" [("rowspan", str "2"), ("width", str "0%")] [str "&nbsp;"],
        htk "TD" [("width", str "100%"), ("valign", str "center")]
          [htk "H1" [] [str "&nbsp;" ++ title]]],
      htk "TR" [] [htk "TD" [] [additions]]] ++
  htk "HR" [] []

def reversePageLink (cls : FormatterClass) (theTopic : Bytes) : Bytes :=
  match cls with
  | .exporting =>
    htk "A" [("href", theTopic ++ str "-ReverseLink" ++ serverConfig.exportSuffix)] [theTopic]
  | _ => htk "A" [("href", str "ReverseLink?page=" ++ theTopic)] [theTopic]

def pageHeaderTable (cls : FormatterClass) (title actions : Bytes) (isSpecial : Bool) : Bytes :=
  match cls with
  | .printable => pageHeaderTemplate cls title (str " ")
  | _ =>
    if isSpecial then pageHeaderTemplate cls title actions
    else pageHeaderTemplate cls (reversePageLink cls title) actions

/-- The menu that an exported page has: the server is not there to search or to edit. -/
def exportActions (cls : FormatterClass) : Bytes :=
  htk "P" []
    [menuStart, existentPageLink cls (str "IndexPage") (str "Index page"), menuSeparator,
      existentPageLink cls (str "RecentChanges") (str "Recent changes"), menuEnd]

def specialPageHeader (cls : FormatterClass) (title : Bytes) : Bytes :=
  let actions := match cls with
    | .exporting => exportActions cls
    | _ => htk "P" []
      [menuStart, existentPageLink cls (str "SearchPage") (str "Search"), menuSeparator,
        existentPageLink cls (str "IndexPage") (str "Index page"), menuSeparator,
        existentPageLink cls (str "RecentChanges") (str "Recent changes"), menuEnd]
  pageHeaderTable cls title actions true

def standardPageHeader (cls : FormatterClass) (title : Bytes) : Bytes :=
  let actions := match cls with
    | .exporting => exportActions cls
    | _ => htk "P" []
      [menuStart, existentPageLink cls (str "EditPage?page=" ++ title) (str "Edit"), menuSeparator,
        existentPageLink cls (title ++ str "?view=printable") (str "Printable"), menuSeparator,
        existentPageLink cls (str "SearchPage") (str "Search"), menuSeparator,
        existentPageLink cls (str "IndexPage") (str "Index page"), menuSeparator,
        existentPageLink cls (str "RecentChanges") (str "Recent changes"), menuEnd]
  pageHeaderTable cls title actions false

def wikiPageTemplate (env : FormatterEnv) (title content : Bytes) (st : FormatterState) :
    Bytes × FormatterState :=
  let (rendered, st) := formatWikiPage env content st
  (htk "BODY" [] [standardPageHeader env.cls title, rendered], st)

def notFoundPageTemplate (cls : FormatterClass) (title : Bytes) : Bytes :=
  htk "BODY" []
    [specialPageHeader cls title,
      htk "P" []
        [str "The specifed page was not found.", htk "BR" [] [],
          str "Try to find it using:&nbsp;", existentPageLink cls (str "SearchPage") (str "Search"),
          str "&nbsp;or&nbsp;", existentPageLink cls (str "IndexPage") (str "Index page"), str ".",
          htk "BR" [] [], str "You can also create new page:&nbsp;",
          existentPageLink cls (str "EditPage?page=" ++ title) title, str "."]]

/-- A list of entries, each with a link to its page; `label` stands before the link. -/
def linkList (env : FormatterEnv) (pages : List (List Bytes × Bytes)) (st : FormatterState) :
    Bytes × FormatterState :=
  pages.foldl
    (fun (list, st) (label, pageTitle) =>
      let (link, st) := internalLink env pageTitle none (some pageTitle) st
      (list ++ htk "LI" [] (label ++ [link]) ++ str "\n", st))
    ([], st)

def specialIndexPageTemplate (env : FormatterEnv) (pages : List Bytes) (st : FormatterState) :
    Bytes × FormatterState :=
  let (list, st) := linkList env (pages.map fun pageTitle => ([], pageTitle)) st
  (htk "BODY" []
    [specialPageHeader env.cls (str "Index page"),
      htk "P" [] [str "The following is a complete list of pages on this server:"],
      htk "UL" [] [list]], st)

def specialRecentChangesTemplate (env : FormatterEnv) (pages : List (Bytes × Bytes))
    (st : FormatterState) : Bytes × FormatterState :=
  let (list, st) := linkList env
    (pages.map fun (filedate, pageTitle) => ([htk "B" [] [filedate], str " - "], pageTitle)) st
  (htk "BODY" []
    [specialPageHeader env.cls (str "Recent changes"),
      htk "P" [] [str "The following is a list of recently changed pages on this server:"],
      htk "UL" [] [list]], st)

def specialReverseLinkTemplate (env : FormatterEnv) (pageName : Bytes)
    (pages : Option (List Bytes)) (st : FormatterState) : Bytes × FormatterState :=
  let (link, st) := internalLink env pageName none (some pageName) st
  let (message, list, st) :=
    match pages with
    | some pages =>
      let (list, st) := linkList env (pages.map fun pageTitle => ([], pageTitle)) st
      (str "The following is a complete list of pages with links to " ++ link ++ str " page:",
        some list, st)
    | none => (str "There are no pages with links to " ++ link ++ str " page.", none, st)
  (htk "BODY" []
    [specialPageHeader env.cls (str "Reverse links for " ++ pageName),
      htk "P" [] [message], htk "UL" [] list.toList], st)

end MoonWiki
