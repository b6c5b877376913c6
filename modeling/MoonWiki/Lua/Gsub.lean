import MoonWiki.Lua.Pattern

/-! `string.find`, `string.gsub` and `string.gfind` of Lua 5.0. -/
namespace Lua

/-- What the loop of `gsub` does at one position: copy a byte or replace a match. -/
inductive Piece
  | copy (b : Byte)
  | hit (m : Match)
  deriving DecidableEq, Repr

/-- The loop of `gsub`. The counter skips the bytes covered by the last match; an empty
match also copies the byte it stands before. -/
def scanFrom (is : List Item) : Nat → Bytes → List Piece
  | _ + 1, [] => []
  | k + 1, _ :: s => scanFrom is k s
  | 0, [] =>
    match matchHere is [] with
    | some m => [.hit m]
    | none => []
  | 0, c :: s =>
    match matchHere is (c :: s) with
    | none => .copy c :: scanFrom is 0 s
    | some m =>
      match m.whole with
      | [] => .hit m :: .copy c :: scanFrom is 0 s
      | _ :: u => .hit m :: scanFrom is u.length s

/-- An anchored pattern is tried at the first position only. -/
def scan (p : Pattern) (s : Bytes) : List Piece :=
  if p.anchor then
    match matchHere p.items s with
    | some m => .hit m :: m.after.map .copy
    | none => s.map .copy
  else scanFrom p.items 0 s

/-- The matches in order. -/
def Piece.hit? : Piece → Option Match
  | .copy _ => none
  | .hit m => some m

def allMatches (p : Pattern) (s : Bytes) : List Match := (scan p s).filterMap Piece.hit?

/-- Every match replaced by what `f` makes of it. -/
def replaceAll (p : Pattern) (f : Match → Bytes) (s : Bytes) : Bytes :=
  (scan p s).flatMap fun
    | .copy b => [b]
    | .hit m => f m

/-- `string.gsub` with a function; what the function returns stands for the match. -/
def gsub (p : Pattern) (f : List Bytes → Bytes) (s : Bytes) : Bytes :=
  replaceAll p (fun m => f m.captures) s

/-- A replacement string: `%0` is the match, `%n` a capture, `%` before another byte
that byte. -/
def addS (m : Match) : Bytes → Bytes
  | [] => []
  | [b] => if b = ch '%' then [] else [b]
  | b :: d :: s =>
    if b = ch '%' then
      (if isDigit d then
        if d = ch '0' then m.whole else m.captures.getD (d.toNat - 49) []
      else [d]) ++ addS m s
    else b :: addS m (d :: s)

/-- `string.gsub` with a replacement string. -/
def gsubStr (p : Pattern) (repl : Bytes) (s : Bytes) : Bytes := replaceAll p (addS · repl) s

/-- `string.gsub` with a function that also changes the state it closes over. -/
def gsubState {σ : Type} (p : Pattern) (f : List Bytes → σ → Bytes × σ) (s : Bytes) (st : σ) :
    Bytes × σ :=
  (scan p s).foldl
    (fun (out, st) piece =>
      match piece with
      | .copy b => (out ++ [b], st)
      | .hit m =>
        let (r, st') := f m.captures st
        (out ++ r, st'))
    ([], st)

/-- The second result of `gsub`. -/
def gsubCount (p : Pattern) (s : Bytes) : Nat := (allMatches p s).length

/-- `string.gfind`: the captures of each match in turn. -/
def gfind (p : Pattern) (s : Bytes) : List (List Bytes) := (allMatches p s).map Match.captures

/-- The leftmost match of an item list, with the bytes before it. -/
def findFrom (is : List Item) : Bytes → Option (Bytes × Match)
  | [] => (matchHere is []).map fun m => ([], m)
  | c :: s =>
    match matchHere is (c :: s) with
    | some m => some ([], m)
    | none => (findFrom is s).map fun (before, m) => (c :: before, m)

/-- `string.find`. -/
def find (p : Pattern) (s : Bytes) : Option (Bytes × Match) :=
  if p.anchor then (matchHere p.items s).map fun m => ([], m) else findFrom p.items s

/-- Whether `string.find` succeeds. -/
def found (p : Pattern) (s : Bytes) : Bool := (find p s).isSome

/-- The first capture of `string.find`. -/
def capture? (p : Pattern) (s : Bytes) : Option Bytes :=
  (find p s).bind fun (_, m) => m.captures.head?

/-- `string.find(s, t, 1, true)`: a plain search. -/
def plainFound (t : Bytes) : Bytes → Bool
  | [] => t.isEmpty
  | c :: s => t.isPrefixOf (c :: s) || plainFound t s

end Lua
