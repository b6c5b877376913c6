import MoonWiki.Lua.Bytes

/-! Lua patterns: their syntax, their parser and the backtracking matcher. -/
namespace Lua

/-- One member of a bracketed set. -/
inductive SetItem
  | lit (b : Byte)
  | cls (l : Byte)
  | range (lo hi : Byte)
  deriving DecidableEq, Repr

/-- A pattern item that consumes one byte. -/
inductive Single
  | any
  | lit (b : Byte)
  | cls (l : Byte)
  | set (negated : Bool) (items : List SetItem)
  deriving DecidableEq, Repr

/-- Repetition suffixes: none, `?`, `*`, `+` and the lazy `-`. -/
inductive Quant
  | one
  | opt
  | star
  | plus
  | minus
  deriving DecidableEq, Repr

inductive Item
  | single (c : Single) (q : Quant)
  | startCapture
  | endCapture
  | eos
  deriving DecidableEq, Repr

/-- A parsed pattern; `anchor` records a leading `^`. -/
structure Pattern where
  anchor : Bool
  items : List Item
  deriving DecidableEq, Repr

/-- The class letter `l` of `%l`; an upper-case letter negates, any other byte is itself. -/
def matchClass (c l : Byte) : Bool :=
  let res : Option Bool :=
    if toLower l = ch 'a' then some (isAlpha c)
    else if toLower l = ch 'c' then some (isCntrl c)
    else if toLower l = ch 'd' then some (isDigit c)
    else if toLower l = ch 'l' then some (isLower c)
    else if toLower l = ch 'p' then some (isPunct c)
    else if toLower l = ch 's' then some (isSpace c)
    else if toLower l = ch 'u' then some (isUpper c)
    else if toLower l = ch 'w' then some (isAlnum c)
    else if toLower l = ch 'x' then some (isXDigit c)
    else if toLower l = ch 'z' then some (c == 0)
    else none
  match res with
  | none => l == c
  | some r => if isLower l then r else !r

def SetItem.test (c : Byte) : SetItem → Bool
  | .lit b => b == c
  | .cls l => matchClass c l
  | .range lo hi => lo ≤ c && c ≤ hi

def matchBracketClass (c : Byte) (negated : Bool) (items : List SetItem) : Bool :=
  items.any (SetItem.test c) != negated

def singleMatch (c : Byte) : Single → Bool
  | .any => true
  | .lit b => b == c
  | .cls l => matchClass c l
  | .set negated items => matchBracketClass c negated items

/-! ### Parsing -/

/-- The members of a set up to its closing bracket. The first one may be a `]`. -/
def parseSet : Nat → Bool → Bytes → Option (List SetItem × Bytes)
  | 0, _, _ => none
  | _, _, [] => none
  | fuel + 1, first, b :: s =>
    if b = ch ']' ∧ !first then some ([], s)
    else if b = ch '%' then
      match s with
      | [] => none
      | l :: s' => do
        let (items, rest) ← parseSet fuel false s'
        return (.cls l :: items, rest)
    else
      match s with
      | d :: hi :: s' =>
        if d = ch '-' ∧ hi ≠ ch ']' then do
          let (items, rest) ← parseSet fuel false s'
          return (.range b hi :: items, rest)
        else do
          let (items, rest) ← parseSet fuel false s
          return (.lit b :: items, rest)
      | _ => do
        let (items, rest) ← parseSet fuel false s
        return (.lit b :: items, rest)

/-- The repetition suffix that follows a single-byte item. -/
def parseQuant : Bytes → Quant × Bytes
  | [] => (.one, [])
  | b :: s =>
    if b = ch '?' then (.opt, s)
    else if b = ch '*' then (.star, s)
    else if b = ch '+' then (.plus, s)
    else if b = ch '-' then (.minus, s)
    else (.one, b :: s)

/-- The single-byte item at the head of a pattern. -/
def parseSingle (b : Byte) (s : Bytes) : Option (Single × Bytes) :=
  if b = ch '.' then some (.any, s)
  else if b = ch '%' then
    match s with
    | [] => none
    | l :: s' =>
      -- `%b`, `%f` and back references are not among the items modelled here
      if l = ch 'b' ∨ l = ch 'f' ∨ isDigit l then none else some (.cls l, s')
  else if b = ch '[' then
    match s with
    | [] => none
    | c :: s' => do
      let (items, rest) ← if c = ch '^' then parseSet s.length true s'
        else parseSet (s.length + 1) true s
      return (.set (c = ch '^') items, rest)
  else some (.lit b, s)

/-- `depth` counts the captures still open, which must be closed at the end. -/
def parseItems : Nat → Nat → Bytes → Option (List Item)
  | 0, _, _ => none
  | _ + 1, depth, [] => if depth = 0 then some [] else none
  | fuel + 1, depth, b :: s =>
    if b = ch '(' then return .startCapture :: (← parseItems fuel (depth + 1) s)
    else if b = ch ')' then
      match depth with
      | 0 => none
      | depth + 1 => return .endCapture :: (← parseItems fuel depth s)
    else if b = ch '$' ∧ s = [] then if depth = 0 then some [.eos] else none
    else do
      let (c, s') ← parseSingle b s
      let (q, s'') := parseQuant s'
      return .single c q :: (← parseItems fuel depth s'')

/-- `none` is a malformed pattern, an error of the Lua library. -/
def parse : Bytes → Option Pattern
  | [] => some ⟨false, []⟩
  | b :: s =>
    if b = ch '^' then (parseItems (s.length + 1) 0 s).map (⟨true, ·⟩)
    else (parseItems (s.length + 2) 0 (b :: s)).map (⟨false, ·⟩)

/-- The pattern written as a literal. -/
def pat (s : String) (h : (parse (str s)).isSome := by exact Eq.refl true) : Pattern :=
  (parse (str s)).get h

/-! ### Matching -/

/-- A capture is open until its closing parenthesis is passed. -/
inductive Capture
  | unfinished (init : Bytes)
  | done (text : Bytes)
  deriving DecidableEq, Repr

/-- Close the last capture still open; `s` is what is left of the subject. -/
def endCapture (s : Bytes) : List Capture → List Capture
  | [] => []
  | c :: cs =>
    if cs.any (fun | .unfinished _ => true | .done _ => false) then c :: endCapture s cs
    else match c with
      | .unfinished init => .done (init.take (init.length - s.length)) :: cs
      | .done t => .done t :: cs

section
variable {α : Type}

/-- As many bytes of the class as possible, then fewer, until the rest matches. -/
def maxExpand (p : Byte → Bool) (rest : Bytes → Option α) : Bytes → Option α
  | [] => rest []
  | c :: s =>
    if p c then
      match maxExpand p rest s with
      | some r => some r
      | none => rest (c :: s)
    else rest (c :: s)

/-- As few bytes of the class as possible, then more, until the rest matches. -/
def minExpand (p : Byte → Bool) (rest : Bytes → Option α) : Bytes → Option α
  | [] => rest []
  | c :: s =>
    match rest (c :: s) with
    | some r => some r
    | none => if p c then minExpand p rest s else none

/-- One single-byte item with its suffix, followed by `rest`. -/
def expand (p : Byte → Bool) (rest : Bytes → Option α) : Quant → Bytes → Option α
  | .one, [] => none
  | .one, c :: s => if p c then rest s else none
  | .opt, [] => rest []
  | .opt, c :: s =>
    if p c then
      match rest s with
      | some r => some r
      | none => rest (c :: s)
    else rest (c :: s)
  | .star, s => maxExpand p rest s
  | .plus, [] => none
  | .plus, c :: s => if p c then maxExpand p rest s else none
  | .minus, s => minExpand p rest s

end

/-- The rest of the subject after a match at its head, and the captures. -/
def doMatch : List Item → List Capture → Bytes → Option (Bytes × List Capture)
  | [], caps, s => some (s, caps)
  | .startCapture :: is, caps, s => doMatch is (caps ++ [.unfinished s]) s
  | .endCapture :: is, caps, s => doMatch is (endCapture s caps) s
  | .eos :: is, caps, s => if s = [] then doMatch is caps s else none
  | .single c q :: is, caps, s => expand (singleMatch · c) (doMatch is caps) q s

/-- The texts a match hands over: its captures, or the whole match when it has none. -/
def pushCaptures (whole : Bytes) (caps : List Capture) : List Bytes :=
  if caps = [] then [whole]
  else caps.map fun
    | .unfinished init => init
    | .done t => t

/-- A match at the head of `s`: what it covers, its captures and what follows. -/
structure Match where
  whole : Bytes
  captures : List Bytes
  after : Bytes
  deriving DecidableEq, Repr

def matchHere (is : List Item) (s : Bytes) : Option Match :=
  (doMatch is [] s).map fun (rest, caps) =>
    let whole := s.take (s.length - rest.length)
    ⟨whole, pushCaptures whole caps, rest⟩

end Lua
