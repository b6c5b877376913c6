import MoonWiki.Config
import MoonWiki.Lua.Gsub

/-! The file system under the server, and `WikiStore.lua`. -/
namespace MoonWiki
open Lua

/-! ### Paths -/

/-- Both slashes separate path segments. -/
def isSeparator (b : Byte) : Bool := b == ch '/' || b == ch '\\'

/-- The segments of a path, empty ones included. -/
def segments (path : Bytes) : List Bytes := path.splitOnP isSeparator

/-- One segment of a path, walked from a directory given by its segments, deepest first. -/
def walk (dir : List Bytes) (seg : Bytes) : List Bytes :=
  if seg = [] ∨ seg = str "." then dir
  else if seg = str ".." then dir.tail
  else seg :: dir

/-- The file a path names when the process runs in `cwd`, deepest segment first. A path
starts with `rootDir`, so it is relative; `fopen` reads it up to the first zero byte. -/
def resolve (cwd : List Bytes) (path : Bytes) : List Bytes :=
  (segments (cString path)).foldl walk cwd

/-! ### Files -/

/-- How the next opening for writing goes: it fails, or the disk takes so many bytes. -/
inductive WriteOutcome
  | openFails
  | accepts (k : Nat)
  deriving DecidableEq, Repr

structure FileEntry where
  date : Bytes
  name : Bytes
  deriving DecidableEq, Repr

/-- The disk. Text files read back the characters that were written. -/
structure Disk where
  cwd : List Bytes
  files : List Bytes → Option Bytes
  /-- `findFiles` for a search pattern -/
  listing : Bytes → List FileEntry
  writing : WriteOutcome

namespace Disk

/-- A disk without files that takes every write. -/
def empty : Disk := ⟨[], fun _ => none, fun _ => [], .accepts (2 ^ 32)⟩

def read (d : Disk) (path : Bytes) : Option Bytes := d.files (resolve d.cwd path)

/-- The file now holds `content`. -/
def put (d : Disk) (path content : Bytes) : Disk :=
  { d with files := fun l => if l = resolve d.cwd path then some content else d.files l }

/-- `io.open(path, "w")`, `write` and `close`: opening truncates, and a write that fails leaves
the bytes the disk took. The first result is `nil` when opening fails. -/
def write (d : Disk) (path content : Bytes) : Bool × Disk :=
  match d.writing with
  | .openFails => (false, d)
  | .accepts k => (true, d.put path (content.take k))

@[simp] theorem read_put (d : Disk) (path content : Bytes) :
    (d.put path content).read path = some content := by
  simp [read, put]

end Disk

/-! ### WikiStore -/

/-- The path of the file of a page. -/
def pagePath (title : Bytes) : Bytes :=
  serverConfig.rootDir ++ str "/" ++ title ++ serverConfig.suffix

/-- A disk that holds these pages and no other files. -/
def Disk.ofPages (pages : List (Bytes × Bytes)) : Disk :=
  { Disk.empty with
    files := fun l => (pages.find? fun page => resolve [] (pagePath page.1) = l).map Prod.snd
    listing := fun _ => pages.map fun page => ⟨[], page.1 ++ serverConfig.suffix⟩ }

namespace WikiStore

def topicExists (d : Disk) (theTopic : Bytes) : Bool := (d.read (pagePath theTopic)).isSome

def loadPage (d : Disk) (title : Bytes) : Option Bytes := d.read (pagePath title)

/-- The page text without CR, as it is written. -/
def stripCR (content : Bytes) : Bytes := gsubStr (pat "\r") [] content

/-- The result of `file:write` is not looked at. -/
def savePage (d : Disk) (title content : Bytes) : Bool × Disk :=
  d.write (pagePath title) (stripCR content)

end WikiStore
end MoonWiki
