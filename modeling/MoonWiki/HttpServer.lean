import MoonWiki.Lua.Number
import MoonWiki.Socket
import MoonWiki.Store
import MoonWiki.WikiFormatter

/-! `HttpServer.lua`: the parsing of a request, headers, error pages and raw files. -/
namespace MoonWiki
open Lua

/-- The Lua errors the server can run into. `doCall` makes each of them fatal. -/
inductive LuaError
  | badArgument
  | callNil
  | concatNil
  | arithmetic
  | assertion
  | malformedPattern
  deriving DecidableEq, Repr

structure Request where
  header : Bytes := []
  postData : Bytes := []
  method : Bytes := []
  uri : Bytes := []
  url : Bytes := []
  protocol : Bytes := []
  options : Table := .empty
  parameters : Table := .empty
  form : Table := .empty
  contentType : Option Bytes := none

structure Response where
  status : Nat := 200
  contentType : Bytes := str "text/html"
  location : Option Bytes := none
  header : Bytes := []
  content : Bytes := []

inductive Mode
  | read
  | write
  deriving DecidableEq, Repr

/-- `table.sort` by date, latest first: sorted, but files of one date in any order. -/
structure DateSort where
  run : List FileEntry → List FileEntry
  perm : ∀ files, (run files).Perm files
  sorted : ∀ files, (run files).Pairwise fun a b => b.date ≤ a.date

/-- A sort that keeps the order of files of one date. -/
def DateSort.insertion : DateSort where
  run files := files.insertionSort fun a b => b.date ≤ a.date
  perm files := List.perm_insertionSort _ files
  sorted files :=
    have : Std.Total fun a b : FileEntry => b.date ≤ a.date :=
      ⟨fun a b => List.le_total b.date a.date⟩
    have : IsTrans FileEntry fun a b => b.date ≤ a.date := ⟨fun _ _ _ h h' => List.le_trans h' h⟩
    List.pairwise_insertionSort _ files

/-- A server object with the connection and the disk it works on. `opened` is the trace of
the calls of `io.open`. -/
structure State where
  request : Request := {}
  response : Response := {}
  formatter : FormatterClass := .wiki
  formatterState : FormatterState := {}
  sortByDate : DateSort
  socket : Socket
  disk : Disk
  opened : List (Mode × Bytes) := []

/-- A server object before its first request, on a closed connection and an empty disk. -/
def State.fresh : State := { sortByDate := .insertion, socket := .closed, disk := .empty }

abbrev Action := Run State LuaError

def setStatus (status : Nat) : Action Unit :=
  Run.modify fun s => { s with response := { s.response with status } }

/-! ### Parsing -/

/-- `httpMethods`: supported, known but not supported, or unknown. -/
def httpMethods (method : Bytes) : Option Bool :=
  if method ∈ [str "GET", str "HEAD", str "POST"] then some true
  else if method ∈ [str "OPTIONS", str "PUT", str "DELETE", str "TRACE", str "CONNECT"] then
    some false
  else none

/-- The loop that reads until the header separator has arrived. Every read takes a byte at
least, so the counter, the number of bytes to come, does not run out. -/
def readHeader : Nat → Bytes → Socket → Option Bytes × Socket
  | 0, _, sock => (none, sock)
  | fuel + 1, buffer, sock =>
    match readFromSocket 512 sock with
    | (none, sock) => (none, sock)
    | (some readBytes, sock) =>
      let buffer := buffer ++ readBytes
      if found (pat "(\r\n\r\n)") buffer then (some buffer, sock)
      else readHeader fuel buffer sock

/-- The two captures of the split of the buffer, `nil` when it is not called. -/
def splitHeader (buffer : Bytes) : Option (Bytes × Bytes) :=
  (gfind (pat "(.*\r\n\r\n)(.*)") buffer).getLast?.map fun c => (c.getD 0 [], c.getD 1 [])

/-- Method, URI and protocol; a later match overwrites an earlier one. -/
def requestLine (header : Bytes) : Option (Bytes × Bytes × Bytes) :=
  (gfind (pat "(%u+)%s+([^%s]+)%s+(HTTP/%d%.%d)%s+") header).getLast?.map
    fun c => (c.getD 0 [], c.getD 1 [], c.getD 2 [])

def unescapeHttp (parameter : Bytes) : Bytes :=
  let parameter := gsubStr (pat "%+") (str " ") parameter
  gsub (pat "%%(%x%x)") (fun c => [hexChar (c.getD 0 [])]) parameter

def escapeHttp (parameter : Bytes) : Bytes :=
  let hex (n : Nat) : Byte := if n < 10 then UInt8.ofNat (48 + n) else UInt8.ofNat (87 + n)
  let parameter := gsubStr (pat " ") (str "%+") parameter
  gsub (pat "[^A-Za-z0-9]")
    (fun c => (c.getD 0 []).flatMap fun b => [ch '%', hex (b.toNat / 16), hex (b.toNat % 16)])
    parameter

/-- The scan for `field=value` pairs, of a query and of a form alike. -/
def parseFields (data : Bytes) (t : Table) : Table :=
  (gfind (pat "([^=?&;]+)=([^;&%s]*)") data).foldl
    (fun t c => t.set (lower (c.getD 0 [])) (unescapeHttp (c.getD 1 []))) t

/-- The URL without its query. -/
def stripQuery (uri : Bytes) : Bytes := gsub (pat "(%?.*)") (fun _ => []) uri

def parseParameters (uri : Bytes) (t : Table) : Table :=
  (gfind (pat "(%?.*)") uri).foldl (fun t c => parseFields (c.getD 0 []) t) t

def parseOptions (header : Bytes) (t : Table) : Table :=
  (gfind (pat "([%a-_]+)%s*:%s*([^\r\n]+)") header).foldl
    (fun t c => t.set (lower (c.getD 0 [])) (c.getD 1 [])) t

def parseRequestLine (request : Request) : Request :=
  match requestLine request.header with
  | some (method, uri, protocol) => { request with method, uri, protocol }
  | none => request

/-- The query and the header options. -/
def parseHeaderFields (request : Request) : Request :=
  { request with
    url := stripQuery request.uri
    parameters := parseParameters request.uri request.parameters
    options := parseOptions request.header request.options }

def readFrom (n : Rat) : Action (Option Bytes) := fun s =>
  let (readBytes, socket) := readFromSocket n s.socket
  (.ok readBytes, { s with socket })

def setRequest (f : Request → Request) : Action Unit :=
  Run.modify fun s => { s with request := f s.request }

/-- The body: with a `Content-Length`, one more `recv` for what is missing. -/
def readBody : Action Bool := do
  let s ← Run.get
  match s.request.options.get (str "content-length") with
  | none => return true
  | some contentLength =>
    match toNumber contentLength with
    | none => Run.error .arithmetic
    | some length =>
      let toRead := length - s.request.postData.length
      if toRead ≠ 0 then
        match ← readFrom toRead with
        | none => setStatus 500; return false
        | some readBytes => setRequest fun r => { r with postData := r.postData ++ readBytes }
      setRequest fun r => { r with form := parseFields r.postData r.form }
      return true

def parseHttpRequest : Action Bool := do
  let s ← Run.get
  let (buffer, socket) := readHeader (s.socket.stream.length + 1) [] s.socket
  Run.modify fun s => { s with socket }
  match buffer with
  | none => setStatus 500; return false
  | some buffer =>
    match splitHeader buffer with
    | some (header, postData) => setRequest fun r => { r with header, postData }
    | none => pure ()
    setRequest parseRequestLine
    match httpMethods (upper (← Run.get).request.method) with
    | none => setStatus 400; return false
    | some false => setStatus 501; return false
    | some true =>
      setRequest parseHeaderFields
      readBody

/-! ### Headers and error pages -/

def httpErrors (status : Nat) : Option Bytes :=
  ([(100, "Continue"), (101, "Switching Protocols"), (200, "OK"), (201, "Created"),
    (202, "Accepted"), (203, "Non-Authoritative Information"), (204, "No Content"),
    (205, "Reset Content"), (206, "Partial Content"), (300, "Multiple Choices"),
    (301, "Moved Permanently"), (302, "Found"), (303, "See Other"), (304, "Not Modified"),
    (305, "Use Proxy"), (307, "Temporary Redirect"), (400, "Bad Request"), (401, "Unauthorized"),
    (402, "Payment Required"), (403, "Forbidden"), (404, "Not Found"),
    (405, "Method Not Allowed"), (406, "Not Acceptable"),
    (407, "Proxy Authentication Required"), (408, "Request Time-out"), (409, "Conflict"),
    (410, "Gone"), (411, "Length Required"), (412, "Precondition Failed"),
    (413, "Request Entity Too Large"), (414, "Request-URI Too Large"),
    (415, "Unsupported Media Type"), (416, "Requested Range Not Satisfiable"),
    (417, "Expectation Failed"), (500, "Internal Server Error"), (501, "Not Implemented"),
    (502, "Bad Gateway"), (503, "Service Unavailable"), (504, "Gateway Time-out"),
    (505, "HTTP Version not supported")] : List (Nat × String)).lookup status |>.map str

/-- The line end after the version is the source's. -/
def createHttpHeader (status : Nat) (contentType : Bytes) (length : Nat) : Bytes :=
  let (status, statusString) := match httpErrors status with
    | some statusString => (status, statusString)
    | none => (500, str "Internal Server Error")
  str "HTTP/1.1 " ++ decimal status ++ str " " ++ statusString ++ str "\r\n" ++
    str "Server:MoonWiki " ++ serverConfig.version ++ str "\n\r" ++
    str "Content-Type:" ++ contentType ++ str "\r\n" ++
    str "Content-Length:" ++ decimal length ++ str "\r\n"

/-- `WikiEngine.methods:getCSS` -/
def getCSS : Bytes :=
  str "<style type=\"text/css\" media=\"all\">\n  /* Default TWiki layout \n  @import url(\"layout.css\"); */\n  /* Default TWiki style */\n  @import url(\"style.css\");  \n</style>\n"

def createHtmlHeader (title : Bytes) : Bytes :=
  let contentType := str "text/html" ++ match serverConfig.charset with
    | some charset => str "; charset=" ++ charset
    | none => []
  htk "HEAD" []
    [htk "TITLE" [] [title],
      str "<META HTTP-EQUIV=\"Content-Type\" CONTENT=\"" ++ contentType ++ str "\">", getCSS]

def createHttpErrorPage (status : Nat) : Action Bytes :=
  match httpErrors status with
  | none => Run.error .assertion
  | some statusString =>
    return htk "HTML" []
      [createHtmlHeader statusString,
        htk "BODY" []
          [htk "H1" [] [str "Error&nbsp;" ++ decimal status], htk "P" [] [statusString]]]

def prepareErrorResponse : Action Unit := do
  let response := (← Run.get).response
  let errorPage ← createHttpErrorPage response.status
  let header := createHttpHeader response.status (str "text/html") errorPage.length
  let header := match response.location with
    | some location => header ++ str "Location:" ++ location ++ str "\r\n"
    | none => header
  Run.modify fun s => { s with response := { s.response with header, content := errorPage } }

/-- The redirection is an error response with a location. -/
def redirectToPage (newPage : Bytes) : Action Bool := do
  Run.modify fun s =>
    { s with response := { s.response with status := 303, location := some newPage } }
  return false

/-! ### Raw files -/

def getFileSuffix (fileName : Bytes) : Option Bytes := capture? (pat ".([%a%d]+)$") fileName

def checkContentType (fileName : Bytes) : Bytes :=
  match (getFileSuffix fileName).bind fun suffix => contentTypes.lookup suffix with
  | some contentType => contentType
  | none => str "application/unknown"

/-- `io.open`: the call is traced, and the file is there or not. -/
def openFile (mode : Mode) (path : Bytes) : Action (Option Bytes) := fun s =>
  (.ok (s.disk.read path), { s with opened := s.opened ++ [(mode, path)] })

/-- `file:read(size)` gives `nil` at the end of the file, so for an empty file. The content
type is stored in the request. -/
def processRawFile (fileName : Bytes) : Action (Option Bytes) := do
  match ← openFile .read (serverConfig.rootDir ++ fileName) with
  | none => setStatus 404; return none
  | some file =>
    setRequest fun r => { r with contentType := some (checkContentType fileName) }
    return if file = [] then none else some file

end MoonWiki
