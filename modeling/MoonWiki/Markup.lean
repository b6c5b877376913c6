import MoonWiki.Lua.Bytes

/-! The tags of a marked-up text, and how they are nested. -/
namespace Markup
open Lua

/-! ### Scanning -/

/-- The name is in upper case. -/
structure Tag where
  closing : Bool
  name : Bytes
  deriving DecidableEq, Repr

/-- The tag between two angle brackets: a slash or none, a name, anything. -/
def tagOf : Bytes → Tag
  | [] => ⟨false, []⟩
  | b :: body =>
    if b = ch '/' then ⟨true, upper (body.takeWhile isAlpha)⟩
    else ⟨false, upper ((b :: body).takeWhile isAlpha)⟩

/-- The state of the scan: outside a tag, or inside one after these bytes, the last one first. -/
def scanTags : Option Bytes → Bytes → List Tag
  | _, [] => []
  | none, b :: s => scanTags (if b = ch '<' then some [] else none) s
  | some body, b :: s =>
    if b = ch '>' then tagOf body.reverse :: scanTags none s else scanTags (some (b :: body)) s

/-- The state in which the scan of a text ends. -/
def scanEnd : Option Bytes → Bytes → Option Bytes
  | state, [] => state
  | none, b :: s => scanEnd (if b = ch '<' then some [] else none) s
  | some body, b :: s => scanEnd (if b = ch '>' then none else some (b :: body)) s

/-- The tags of a text, in order. -/
def tags (s : Bytes) : List Tag := scanTags none s

theorem scanTags_append (state : Option Bytes) (s t : Bytes) :
    scanTags state (s ++ t) = scanTags state s ++ scanTags (scanEnd state s) t := by
  induction s generalizing state with
  | nil => cases state <;> rfl
  | cons b s ih =>
    cases state with
    | none => exact ih _
    | some body =>
      rw [List.cons_append, scanTags, scanTags, scanEnd]
      split_ifs
      · rw [ih]
        rfl
      · exact ih _

theorem scanEnd_append (state : Option Bytes) (s t : Bytes) :
    scanEnd state (s ++ t) = scanEnd (scanEnd state s) t := by
  induction s generalizing state with
  | nil => cases state <;> rfl
  | cons b s ih => cases state <;> exact ih _

/-- Text without brackets has no tags. -/
theorem scan_plain {s : Bytes} (h : ch '<' ∉ s) : tags s = [] ∧ scanEnd none s = none := by
  induction s with
  | nil => exact ⟨rfl, rfl⟩
  | cons b s ih =>
    have hb : b ≠ ch '<' := fun heq => h (by simp [heq])
    rw [tags, scanTags, scanEnd, if_neg hb]
    exact ih fun hmem => h (List.mem_cons_of_mem b hmem)

/-! ### Nesting -/

/-- The open elements after some tags, the innermost first; `none` when a tag closes an element
that is not the innermost one. -/
def nest : List Bytes → List Tag → Option (List Bytes)
  | opened, [] => some opened
  | opened, ⟨false, name⟩ :: ts => nest (name :: opened) ts
  | [], ⟨true, _⟩ :: _ => none
  | inner :: opened, ⟨true, name⟩ :: ts => if name = inner then nest opened ts else none

theorem nest_append (opened : List Bytes) (ts us : List Tag) :
    nest opened (ts ++ us) = (nest opened ts).bind fun opened => nest opened us := by
  fun_induction nest opened ts with
  | case1 => rfl
  | case2 opened name ts ih => exact ih
  | case3 => rfl
  | case4 opened name ts ih =>
    rw [List.cons_append, nest, if_pos rfl]
    exact ih
  | case5 inner opened name ts h =>
    rw [List.cons_append, nest, if_neg h]
    rfl

/-- Every element is closed, and each one inside the one it was opened in. -/
def Nested (ts : List Tag) : Prop := nest [] ts = some []

/-- Closing what is open makes the sequence nested. -/
theorem nest_closed {ts : List Tag} {opened : List Bytes} (h : nest [] ts = some opened) :
    Nested (ts ++ opened.map (⟨true, ·⟩)) := by
  have hclose : ∀ opened, nest opened (opened.map (⟨true, ·⟩)) = some [] := by
    intro opened
    induction opened with
    | nil => rfl
    | cons name opened ih =>
      rw [List.map_cons, nest, if_pos rfl]
      exact ih
  rw [Nested, nest_append, h]
  exact hclose opened

/-! ### Texts that open and close elements -/

/-- The tags with one of these names. -/
def tagsNamed (names : List Bytes) (s : Bytes) : List Tag :=
  (tags s).filter fun t => t.name ∈ names

/-- The text leads from some open elements with these names to others, and ends outside a tag. -/
def Leads (names : List Bytes) (s : Bytes) (before after : List Bytes) : Prop :=
  scanEnd none s = none ∧ nest before (tagsNamed names s) = some after

instance (names : List Bytes) (s : Bytes) (before after : List Bytes) :
    Decidable (Leads names s before after) :=
  inferInstanceAs (Decidable (_ ∧ _))

section
variable {names a b c : List Bytes} {s t : Bytes}

theorem Leads.refl : Leads names [] a a := ⟨rfl, rfl⟩

theorem Leads.plain (h : ch '<' ∉ s) : Leads names s a a := by
  obtain ⟨htags, hend⟩ := scan_plain h
  exact ⟨hend, by rw [tagsNamed, htags]; rfl⟩

theorem Leads.append (hs : Leads names s a b) (ht : Leads names t b c) :
    Leads names (s ++ t) a c := by
  have htags : tagsNamed names (s ++ t) = tagsNamed names s ++ tagsNamed names t := by
    rw [tagsNamed, tags, scanTags_append, hs.1, List.filter_append]
    rfl
  refine ⟨by rw [scanEnd_append, hs.1, ht.1], ?_⟩
  rw [htags, nest_append, hs.2]
  exact ht.2

/-- One tag that opens an element. -/
theorem Leads.opens {name : Bytes} (hend : scanEnd none s = none)
    (htags : tagsNamed names s = [⟨false, name⟩]) : Leads names s a (name :: a) :=
  ⟨hend, by rw [htags]; rfl⟩

/-- One tag that closes the innermost element. -/
theorem Leads.closes {name : Bytes} (hend : scanEnd none s = none)
    (htags : tagsNamed names s = [⟨true, name⟩]) : Leads names s (name :: a) a :=
  ⟨hend, by rw [htags, nest, if_pos rfl]; rfl⟩

end

end Markup
