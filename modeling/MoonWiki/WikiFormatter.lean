import MoonWiki.Config
import MoonWiki.Htk
import MoonWiki.Lua.Gsub
import MoonWiki.Lua.Number

/-! `WikiFormatter.lua`: the rendering of a line and of a page. -/
namespace MoonWiki
open Lua

/-- The formatter classes with overrides of their own. -/
inductive FormatterClass
  | wiki
  | printable
  | exporting
  deriving DecidableEq, Repr

/-- What a formatter asks of its engine and its store. -/
structure FormatterEnv where
  cls : FormatterClass
  isSpecialPage : Bytes → Bool
  topicExists : Bytes → Bool

/-- The fields of a formatter; the lists have their last element first. `probed` is the trace
of the topics looked up in the store. -/
structure FormatterState where
  insideTable : Bool := false
  insidePre : Bool := false
  insideNoAutoLink : Bool := false
  isList : Bool := false
  listTypes : List Bytes := []
  listElements : List Bytes := []
  result : StringBuffer := {}
  probed : List Bytes := []
  deriving DecidableEq, Repr

namespace FormatterState

def addString (st : FormatterState) (s : Option Bytes) : FormatterState :=
  { st with result := st.result.addString s }

end FormatterState

def transToken : Bytes := str "~$~"

def wikiWordPattern : Pattern := pat "(%u+%l+%u+[%a%d]*)"

/-! ### Titles and links -/

/-- The leftmost WikiWord of the title is the whole title. -/
def isValidTitle (title : Bytes) : Bool := capture? wikiWordPattern title = some title

def existentPageLink (cls : FormatterClass) (theTopic theText : Bytes) : Bytes :=
  match cls with
  | .exporting =>
    htk "A" [("class", str "twikiLink"), ("href", theTopic ++ serverConfig.exportSuffix)] [theText]
  | _ => htk "A" [("class", str "twikiLink"), ("href", theTopic)] [theText]

def nonExistentPageLink (cls : FormatterClass) (theTopic theText : Bytes) : Bytes :=
  match cls with
  | .exporting => theText
  | _ =>
    htk "SPAN" [("class", str "twikiNewLink"), ("style", str "background : #FFFFCE;")]
      [htk "FONT" [("color", str "#0000FF")] [theText],
        htk "A" [("href", str "EditPage?page=" ++ theTopic)] [htk "SUP" [] [str "?"]]]

/-- The suffix rules for plural names, one after another. -/
def singular (theTopic : Bytes) : Bytes :=
  let tmp := gsubStr (pat "ies$") (str "y") theTopic
  let tmp := gsubStr (pat "sses$") (str "ss") tmp
  let tmp := gsubStr (pat "([Xx])es$") (str "%1") tmp
  gsubStr (pat "([A-Za-rt-z])s$") (str "%1") tmp

/-- `topicExists`, leaving a trace. -/
def probe (env : FormatterEnv) (theTopic : Bytes) (st : FormatterState) : Bool × FormatterState :=
  (env.topicExists theTopic, { st with probed := st.probed ++ [theTopic] })

def WikiFormatter.internalLink (env : FormatterEnv) (theTopic : Bytes)
    (theAnchor theText : Option Bytes) (st : FormatterState) : Bytes × FormatterState :=
  if env.isSpecialPage theTopic then
    (htk "A" [("class", str "twikiLink"), ("href", theTopic)] [theTopic], st)
  else
    let originalTopic := theTopic
    let (exists_, st) := probe env theTopic st
    let (exists_, theTopic, st) :=
      if !exists_ && lastByte theTopic = str "s" then
        let tmp := singular theTopic
        let (found_, st) := probe env tmp st
        (found_, tmp, st)
      else (exists_, theTopic, st)
    if exists_ then
      let link := match theAnchor with
        | some a => theTopic ++ str "#" ++ a
        | none => theTopic
      let text := match theText, theAnchor with
        | some t, _ => t
        | none, some a => originalTopic ++ str "#" ++ a
        | none, none => originalTopic
      (existentPageLink env.cls link text, st)
    else (nonExistentPageLink env.cls originalTopic (theText.getD originalTopic), st)

def internalLink (env : FormatterEnv) (theTopic : Bytes) (theAnchor theText : Option Bytes)
    (st : FormatterState) : Bytes × FormatterState :=
  match env.cls with
  | .printable => (theText.getD theTopic, st)
  | _ => WikiFormatter.internalLink env theTopic theAnchor theText st

/-- Strips the blanks around the link; a scheme makes it external, else an anchor is cut out. -/
def specificLink (env : FormatterEnv) (theLink theText : Bytes) (st : FormatterState) :
    Bytes × FormatterState :=
  let theLink := gsubStr (pat "^%s*") [] theLink
  let theLink := gsubStr (pat "%s*$") [] theLink
  if found (pat "^%w+:") theLink then
    let theText := gsubStr (pat "([*s%(])(%u+%l+)") (str "%1<nop>%2") theText
    (htk "A" [("class", str "twikiLink"), ("href", theLink)] [theText], st)
  else
    let anchorPattern := pat "#(%u+%l+%u+[%a%d]*)"
    let anchor := (gfind anchorPattern theLink).getLast?.bind List.head?
    internalLink env (gsub anchorPattern (fun _ => []) theLink) anchor (some theText) st

def urlTypes : List Bytes :=
  [str "http", str "ftp", str "gopher", str "mailto", str "file", str "news", str "telnet",
    str "https"]

def processUrl (cls : FormatterClass) (urlType urlAddress : Bytes) : Bytes :=
  let url := urlType ++ str ":" ++ urlAddress
  match cls with
  | .printable => url
  | _ => if urlType ∈ urlTypes then htk "A" [("href", url)] [url] else url

/-! ### Tables and lists -/

/-- One cell of a table row: its text and the bars that follow it. -/
def tableCell (cell span : Bytes) : Bytes :=
  let colSpan := span.length
  let attrs := if colSpan = 1 then [] else [("colspan", decimal colSpan)]
  match capture? (pat "^%s*%*(.*)%*%s*$") cell with
  | some text => htk "TH" attrs [text]
  | none => htk "TD" attrs [cell]

def processTableLine (line : Bytes) (st : FormatterState) : Bytes × FormatterState :=
  match capture? (pat "^%s*(|.*|)%s*$") line with
  | none =>
    if st.insideTable then
      (line, { st with insideTable := false }.addString (some (str "</TABLE>\n")))
    else (line, st)
  | some line =>
    let opening := if st.insideTable then [] else str "<TABLE border=\"1\">\n"
    let row := (gfind (pat "([^|]+)(|+)") line).flatMap
      fun c => tableCell (c.getD 0 []) (c.getD 1 [])
    (opening ++ htk "TR" [] [row], { st with insideTable := true })

/-- The first loop of `emitList`: opens `n` levels. -/
def openLevels (theType theElement theOlType : Bytes) : Nat → Bool → FormatterState →
    StringBuffer → FormatterState × StringBuffer
  | 0, _, st, result => (st, result)
  | n + 1, firstTime, st, result =>
    let st := { st with
      listTypes := theType :: st.listTypes
      listElements := theElement :: st.listElements }
    let result :=
      if firstTime then result
      else result.addString (some (str "<" ++ theElement ++ str ">\n"))
    let result :=
      if theOlType ≠ [] then
        result.addString (some (str "<" ++ theType ++ str " type=\"" ++ theOlType ++ str "\">\n"))
      else result.addString (some (str "<" ++ theType ++ str ">\n"))
    openLevels theType theElement theOlType n false st result

/-- The second loop of `emitList`: closes `n` levels. -/
def closeLevels : Nat → FormatterState → StringBuffer → FormatterState × StringBuffer
  | 0, st, result => (st, result)
  | n + 1, st, result =>
    let result := result.addString (some (str "</" ++ st.listElements.headD [] ++ str ">\n"))
    let result := result.addString (some (str "</" ++ st.listTypes.headD [] ++ str ">\n"))
    closeLevels n { st with listTypes := st.listTypes.tail, listElements := st.listElements.tail }
      result

/-- The replacement text `$1` is no capture of Lua, so a marker becomes these two bytes. -/
def olType : Option Bytes → Bytes
  | none => []
  | some theOlType =>
    let t := gsubStr (pat "^(.).*") (str "$1") theOlType
    if t = str "1" then [] else t

def closeElement (st : FormatterState) (result : StringBuffer) : StringBuffer :=
  match st.listElements with
  | [] => result
  | e :: _ => result.addString (some (str "</" ++ e ++ str ">\n"))

def emitList (theType theElement : Bytes) (theDepth : Nat) (theOlType : Option Bytes)
    (st : FormatterState) : Option Bytes × FormatterState :=
  let st := { st with isList := true }
  let size := st.listTypes.length
  let (st, result) :=
    if size < theDepth then
      openLevels theType theElement (olType theOlType) (theDepth - size) true st {}
    else if size > theDepth then
      let (st, result) := closeLevels (size - theDepth) st {}
      (st, closeElement st result)
    else (st, closeElement st {})
  let (st, result) :=
    match st.listTypes with
    | [] => (st, result)
    | lastType :: rest =>
      if lastType ≠ theType then
        ({ st with
          listTypes := theType :: rest
          listElements := theElement :: st.listElements.tail },
          result.addString (some (str "</" ++ lastType ++ str ">\n<" ++ theType ++ str ">\n")))
      else (st, result)
  (result.toString.1, st)

def calculateListLevel (header : Bytes) : Nat :=
  let level := header.length
  if level % 3 = 0 then level / 3 else level

/-! ### Lines -/

/-- Block quotes. -/
def blockQuote (line : Bytes) : Bytes :=
  gsubStr (pat "^>(.*)$") (htk "CITE" [] [str "%1"] ++ htk "BR" [] []) line

/-- Embedded HTML. The length of the replacement for a run of brackets is that of `%1`, two. -/
def embeddedHtml (line : Bytes) : Bytes :=
  let line := gsubStr (pat "<!%-%-") (transToken ++ str "!--") line
  let line := gsubStr (pat "%-%->") (str "--" ++ transToken) line
  let line := gsubStr (pat "(<<+)") (rep (str "&lt;") (str "%1").length) line
  let line := gsubStr (pat "(>>+)") (rep (str "&gt;") (str "%1").length) line
  let line := gsubStr (pat "<nop>") (str "nopTOKEN") line
  let line := gsubStr (pat "<(%S.-)>") (transToken ++ str "%1" ++ transToken) line
  let line := gsubStr (pat "<") (str "&lt;") line
  let line := gsubStr (pat ">") (str "&gt;") line
  let line := gsubStr (pat "~$~(%S.-)~$~") (str "<%1>") line
  let line := gsubStr (pat "nopTOKEN") (str "<nop>") line
  let line := gsubStr (pat "~$~!%-%-") (str "<!--") line
  gsubStr (pat "%-%-~$~") (str "-->") line

def embeddedUrls (cls : FormatterClass) (line : Bytes) : Bytes :=
  gsub (pat "([^%[])(%w+):([^%s<>\"]+[^%s.,!?;:)<=_*])([^%]])")
    (fun c => c.getD 0 [] ++ processUrl cls (c.getD 1 []) (c.getD 2 []) ++ c.getD 3 []) line

def entities (line : Bytes) : Bytes :=
  let line := gsubStr (pat "&(%w%w-);") (transToken ++ str "%1;") line
  let line := gsubStr (pat "&#(%d+);") (transToken ++ str "#%1;") line
  let line := gsubStr (pat "&") (str "&amp;") line
  gsubStr (pat "~$~") (str "&") line

def headings (line : Bytes) : Bytes :=
  gsub (pat "^(%-%-%-%++ )(.*)$")
    (fun c =>
      let header := c.getD 0 []
      let restOfLine := c.getD 1 []
      let level := header.length - 4
      if level ≤ 6 then
        str "<H" ++ decimal level ++ str ">" ++ restOfLine ++ str "</H" ++ decimal level ++ str ">"
      else header ++ restOfLine)
    line

def horizontalRule (line : Bytes) : Bytes :=
  gsubStr (pat "^%-%-%-%-+") (htk "HR" [] []) line

/-- An empty line becomes a paragraph; it and a line without indent end a list. -/
def paragraphs (line : Bytes) (st : FormatterState) : Bytes × FormatterState :=
  let count := gsubCount (pat "^%s*$") line
  let line := gsubStr (pat "^%s*$") (htk "P" [] []) line
  (line, if count > 0 ∨ found (pat "^%S+") line then { st with isList := false } else st)

/-- One kind of list item: the item is announced to `emitList` when its pattern matches. -/
def listItem (p : Pattern) (theType : Bytes) (line : Bytes) (st : FormatterState) :
    Bytes × FormatterState :=
  gsubState p
    (fun cs st =>
      let (emitted, st) := emitList theType (str "LI") (calculateListLevel (cs.getD 0 [])) cs[1]? st
      (str "<LI> ", st.addString emitted))
    line st

def lists (line : Bytes) (st : FormatterState) : Bytes × FormatterState :=
  let (line, st) := listItem (pat "^([ ]+)%* ") (str "UL") line st
  let (line, st) := listItem (pat "^([ ]+)(%d+%.?) ?") (str "OL") line st
  let (line, st) := listItem (pat "^([ ]+)([1AaIi]%.) ?") (str "OL") line st
  if st.isList then (line, st)
  else
    let (emitted, st) := emitList [] [] 0 none st
    (line, { st.addString emitted with isList := false })

def anchors (line : Bytes) : Bytes :=
  gsubStr (pat "^(#)(%u+%l+%u+[%a%d]*)") (htk "A" [("name", str "%2")] []) line

def tt (s : Bytes) : Bytes := htk "TT" [] [s]
def strong (s : Bytes) : Bytes := htk "STRONG" [] [s]
def em (s : Bytes) : Bytes := htk "EM" [] [s]

/-- Each style is rendered by two patterns: a text of two bytes or more, then one without
blanks. -/
def emphasis (line : Bytes) : Bytes :=
  let wrap (body : Bytes) : Bytes := str "%1" ++ body ++ str "%3"
  let line :=
    gsubStr (pat "([%s(])==([^%s].-[^%s])==([%s,.;:!?])") (wrap (tt (strong (str "%2")))) line
  let line := gsubStr (pat "([%s(])==([^%s]-)==([%s,.;:!?])") (wrap (tt (strong (str "%2")))) line
  let line :=
    gsubStr (pat "([%s(])__([^%s].-[^%s])__([%s,.;:!?])") (wrap (strong (em (str "%2")))) line
  let line := gsubStr (pat "([%s(])__([^%s]-)__([%s,.;:!?])") (wrap (strong (em (str "%2")))) line
  let line := gsubStr (pat "([%s(])%*([^%s].-[^%s])%*([%s,.;:!?])") (wrap (strong (str "%2"))) line
  let line := gsubStr (pat "([%s(])%*([^%s]-)%*([%s,.;:!?])") (wrap (strong (str "%2"))) line
  let line := gsubStr (pat "([%s(])_([^%s].-[^%s])_([%s,.;:!?])") (wrap (em (str "%2"))) line
  let line := gsubStr (pat "([%s(])_([^%s]-)_([%s,.;:!?])") (wrap (em (str "%2"))) line
  let line := gsubStr (pat "([%s(])=([^%s].-[^%s])=([%s,.;:!?])") (wrap (tt (str "%2"))) line
  gsubStr (pat "([%s(])=([^%s]-)=([%s,.;:!?])") (wrap (tt (str "%2"))) line

/-- `[[link][text]]`. -/
def hyperLinks (env : FormatterEnv) (line : Bytes) (st : FormatterState) :
    Bytes × FormatterState :=
  gsubState (pat "%[%[([^%]]+)%]%[([^%]]+)%]%]")
    (fun c st => specificLink env (c.getD 0 []) (c.getD 1 []) st) line st

/-- `Topic#Anchor`, then `Topic`. -/
def autoLinks (env : FormatterEnv) (line : Bytes) (st : FormatterState) : Bytes × FormatterState :=
  if st.insideNoAutoLink then (line, st)
  else
    let (line, st) := gsubState (pat "([%s(])(%u+%l+%u+[%a%d]*)#(%u+%l+%u+[%a%d]*)")
      (fun cs st =>
        let (link, st) := internalLink env (cs.getD 1 []) cs[2]? none st
        (cs.getD 0 [] ++ link, st))
      line st
    gsubState (pat "([%s(])(%u+%l+%u+[%a%d]*)")
      (fun c st =>
        let (link, st) := internalLink env (c.getD 1 []) none none st
        (c.getD 0 [] ++ link, st))
      line st

/-- For a name other than `BR` the source returns the global `line`, which is `nil`. -/
def processDefinedVariables (text : Bytes) : Option Bytes :=
  if text = str "BR" then some (htk "BR" [] []) else none

def percentVariables (line : Bytes) : Bytes :=
  gsub (pat "%%(%S+)%%") (fun c => (processDefinedVariables (c.getD 0 [])).getD []) line

def formatWikiLine (env : FormatterEnv) (line : Bytes) (st : FormatterState) :
    Bytes × FormatterState :=
  let line := blockQuote line
  let line := embeddedHtml line
  let line := embeddedUrls env.cls line
  let line := entities line
  let line := headings line
  let line := horizontalRule line
  let (line, st) := processTableLine line st
  let (line, st) := paragraphs line st
  let (line, st) := lists line st
  let line := anchors line
  let line := str " " ++ line ++ str " "
  let line := emphasis line
  let (line, st) := hyperLinks env line st
  let (line, st) := autoLinks env line st
  (percentVariables line, st)

/-! ### Pages -/

/-- The marker that stands for the `i`-th verbatim section. -/
def verbatimMarker (i : Nat) : Bytes := str "VERBATIM(" ++ decimal i ++ str ")VERBATIM"

def takeOutVerbatim (text : Bytes) : Bytes × List Bytes :=
  gsubState (pat "<verbatim>(.-)</verbatim>")
    (fun c verbatimList =>
      (verbatimMarker (verbatimList.length + 1), verbatimList ++ [c.getD 0 []]))
    text []

/-- An index without a section gives an empty element. -/
def putBackVerbatim (text : Bytes) (verbatimList : List Bytes) : Bytes :=
  gsub (pat "VERBATIM%((%d+)%)VERBATIM")
    (fun c =>
      let i := digitsValue (c.getD 0 [])
      htk "PRE" [] (if i = 0 then [] else verbatimList[i - 1]?.toList))
    text

/-- The switches a line sets before it is rendered. -/
def lineModes (line : Bytes) (st : FormatterState) : FormatterState :=
  let l := lower line
  let st :=
    if plainFound (str "<pre>") l then { st with insidePre := true }
    else if plainFound (str "</pre>") l then { st with insidePre := false }
    else st
  if plainFound (str "<noautolink>") l then { st with insideNoAutoLink := true }
  else if plainFound (str "</noautolink>") l then { st with insideNoAutoLink := false }
  else st

/-- One round of the loop of `formatWikiPage`. -/
def pageLine (env : FormatterEnv) (line : Bytes) (st : FormatterState) : FormatterState :=
  let st := lineModes line st
  if st.insidePre then
    let st :=
      if st.listTypes.length > 0 then
        let (emitted, st) := emitList [] [] 0 none st
        { st.addString emitted with isList := false }
      else st
    st.addString (some (line ++ str "\n"))
  else
    let (rendered, st) := formatWikiLine env line st
    st.addString (some rendered)

/-- The text of a page as the line loop sees it, and its verbatim sections. -/
def pageText (content : Bytes) : Bytes × List Bytes :=
  let content := gsubStr (pat "\r") [] content
  let content := gsubStr (pat "(\n?)$") (str "\n<nop>\n") content
  let (content, verbatimList) := takeOutVerbatim content
  (gsubStr (pat "\\\n") [] content, verbatimList)

/-- What follows the last line: open tables, lists and PRE sections are closed. -/
def pageEnd (st : FormatterState) : FormatterState :=
  let st := if st.insideTable then st.addString (some (str "</table>\n")) else st
  let (emitted, st) := emitList [] [] 0 none st
  let st := st.addString emitted
  if st.insidePre then st.addString (some (str "</pre>\n")) else st

def formatWikiPage (env : FormatterEnv) (content : Bytes) (st : FormatterState) :
    Bytes × FormatterState :=
  let (text, verbatimList) := pageText content
  let st := { st with isList := false, result := {} }
  let st := (gfind (pat "([^\n]*)\n") text).foldl (fun st c => pageLine env (c.getD 0 []) st) st
  let st := pageEnd st
  let (processedLines, result) := st.result.toString
  let processedLines := putBackVerbatim (processedLines.getD []) verbatimList
  (gsubStr (pat "\n?<nop>\n$") [] processedLines, { st with result })

end MoonWiki
