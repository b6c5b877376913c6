import MoonWiki.Lua.Run

/-! The element constructors of `htk.lua` and the accumulator of `StringBuffer.lua`. -/
namespace MoonWiki
open Lua

/-- A stack of strings, the top first. -/
structure StringBuffer where
  stack : List Bytes := []
  deriving DecidableEq, Repr

namespace StringBuffer

/-- The merging loop of `addString`: shorter strings are joined to what lies above them. -/
def merge : Bytes → List Bytes → List Bytes
  | top, [] => [top]
  | top, below :: rest =>
    if below.length > top.length then top :: below :: rest else merge (below ++ top) rest

/-- A `nil` argument is ignored. -/
def addString (b : StringBuffer) : Option Bytes → StringBuffer
  | none => b
  | some s => ⟨merge s b.stack⟩

/-- Joins the whole stack; `nil` when nothing was added. -/
def toString (b : StringBuffer) : Option Bytes × StringBuffer :=
  match b.stack with
  | [] => (none, b)
  | top :: rest =>
    let joined := rest.foldl (fun acc below => below ++ acc) top
    (some joined, ⟨[joined]⟩)

/-- What has been added so far. -/
def contents (b : StringBuffer) : Bytes := b.stack.reverse.flatten

theorem merge_flatten (top : Bytes) (below : List Bytes) :
    (merge top below).reverse.flatten = below.reverse.flatten ++ top := by
  induction below generalizing top with
  | nil => simp [merge]
  | cons b rest ih =>
    rw [merge]
    split_ifs
    · simp
    · simp [ih]

/-- However the strings are merged, adding one appends it. -/
theorem contents_addString (b : StringBuffer) (s : Option Bytes) :
    (b.addString s).contents = b.contents ++ s.getD [] := by
  cases s with
  | none => simp [addString]
  | some s => exact merge_flatten s b.stack

/-- The joined string is what has been added, and stays so. -/
theorem toString_contents (b : StringBuffer) :
    b.toString.1.getD [] = b.contents ∧ b.toString.2.contents = b.contents := by
  rw [toString]
  split
  · rename_i h
    simp [contents, h]
  · rename_i top rest h
    simp [contents, h]

end StringBuffer

/-! ### HTK -/

/-- The `%s` of `string.format`: a short argument goes through `sprintf`, which stops at a
zero byte. -/
def formatS (v : Bytes) : Bytes := if 100 ≤ v.length then v else cString v

/-- The tags that `valid_tags` marks with 2. -/
def emptyTags : List String :=
  ["AREA", "BASE", "BASEFONT", "BR", "COL", "FRAME", "HR", "IMG", "INPUT", "ISINDEX", "LINK",
    "META", "P", "PARAM"]

def attr (name : String) (value : Bytes) : Bytes :=
  str " " ++ formatS (str name) ++ str "=\"" ++ formatS value ++ str "\""

/-- `HTK.field { attrs, contain }`. Lua leaves the order of the attributes open; the
model keeps the written one. The pieces are joined as `StringBuffer` joins them. -/
def htk (field : String) (attrs : List (String × Bytes)) (contain : List Bytes) : Bytes :=
  str "<" ++ str field ++ attrs.flatMap (fun (i, v) => attr i v) ++ str ">" ++
    contain.flatten ++
    if contain ≠ [] ∨ field ∉ emptyTags then str "</" ++ str field ++ str ">" else []

theorem htk_eq (field : String) (attrs : List (String × Bytes)) (contain : List Bytes) :
    htk field attrs contain =
      str "<" ++ str field ++ attrs.flatMap (fun a => attr a.1 a.2) ++ str ">" ++
        contain.flatten ++
        if contain ≠ [] ∨ field ∉ emptyTags then str "</" ++ str field ++ str ">" else [] := rfl

end MoonWiki
