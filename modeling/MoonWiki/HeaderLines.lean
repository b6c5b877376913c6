import MoonWiki.Lua.Runs
import MoonWiki.RequestFraming
import MoonWiki.RequestWords

/-! The request line and the header lines as `parseHttpRequest` finds them, and as they stand in
the lines of the request. -/
namespace MoonWiki
open Lua

variable {b : Byte} {s t u v w rest : Bytes}

/-! ### A request in lines -/

def isLineByte (b : Byte) : Bool := b != 13 && b != 10

/-- `Name: value` -/
structure HeaderLine where
  name : Bytes
  value : Bytes
  name_ne : name ≠ []
  nameBytes : ∀ b ∈ name, isAlpha b = true ∨ b = ch '-'
  valueBytes : ∀ b ∈ value, isLineByte b = true

structure RequestBlock where
  method : Bytes
  uri : Bytes
  major : Byte
  minor : Byte
  headers : List HeaderLine
  method_ne : method ≠ []
  methodBytes : ∀ b ∈ method, isUpper b = true
  uri_ne : uri ≠ []
  uriBytes : ∀ b ∈ uri, isSpace b = false
  majorDigit : isDigit major = true
  minorDigit : isDigit minor = true

def HeaderLine.text (h : HeaderLine) : Bytes := h.name ++ str ": " ++ h.value

/-- What the line says: the name in lower case, the value without the blanks before it. -/
def HeaderLine.field (h : HeaderLine) : Bytes × Bytes :=
  (lower h.name, h.value.dropWhile isSpace)

def HeaderLine.isBlank (h : HeaderLine) : Bool := h.value.all isSpace

def headerText (headers : List HeaderLine) : Bytes :=
  headers.flatMap (fun h => h.text ++ str "\r\n") ++ str "\r\n"

namespace RequestBlock

def protocol (block : RequestBlock) : Bytes :=
  str "HTTP/" ++ [block.major, ch '.', block.minor]

def firstLine (block : RequestBlock) : Bytes :=
  block.method ++ str " " ++ block.uri ++ str " " ++ block.protocol

def text (block : RequestBlock) : Bytes :=
  block.firstLine ++ str "\r\n" ++ headerText block.headers

end RequestBlock

/-! ### What is read -/

/-- The fields that the scan of `parseOptions` finds, in order. -/
def readFields (header : Bytes) : List (Bytes × Bytes) :=
  (gfind (pat "([%a-_]+)%s*:%s*([^\r\n]+)") header).map fun c => (lower (c.getD 0 []), c.getD 1 [])

def fieldTable (fields : List (Bytes × Bytes)) : Table :=
  fields.foldl (fun t field => t.set field.1 field.2) .empty

/-- The fields read of a request: with another method the scan is not reached. -/
def fieldsRead (r : Request) : List (Bytes × Bytes) :=
  if httpMethods (upper r.method) = some true then readFields r.header else []

/-- The request line is the first line, and the header fields are those of the lines, in order:
none is swallowed by another and none is found elsewhere. -/
structure ReadByLines (block : RequestBlock) (r : Request) : Prop where
  method : r.method = block.method
  uri : r.uri = block.uri
  protocol : r.protocol = block.protocol
  fields : fieldsRead r = block.headers.map HeaderLine.field
  options : r.options = fieldTable (block.headers.map HeaderLine.field)

/-! ### When they agree -/

/-- A byte of a field name. -/
def isFieldByte (b : Byte) : Bool := isAlpha b || b == ch '-' || b == ch '_'

/-- A colon with a field name before it, and nothing but blanks between. -/
def NamesField (line : Bytes) : Prop :=
  ∃ x b blanks y, line = x ++ b :: (blanks ++ ch ':' :: y) ∧ isFieldByte b = true ∧
    ∀ d ∈ blanks, isSpace d = true

/-- The last three words of the header lines that look like a request line, if any, repeat it. -/
def RequestBlock.LineStands (block : RequestBlock) : Prop :=
  ∀ triple ∈ (lineTriples (words (headerText block.headers))).getLast?,
    triple = [block.method, block.uri, block.protocol]

structure RequestBlock.FieldsStand (block : RequestBlock) : Prop where
  noField : ¬ NamesField block.firstLine
  values : ∀ h ∈ block.headers, h.isBlank = false

/-- With a method that is not supported no field is read. -/
def RequestBlock.Stands (block : RequestBlock) : Prop :=
  block.LineStands ∧ if httpMethods (upper block.method) = some true then block.FieldsStand
    else block.headers = []

/-! ### One field -/

def fieldSet : Single := .set false [.cls (ch 'a'), .lit (ch '-'), .lit (ch '_')]

def valueItems : List Item :=
  [.startCapture, .single (.set true [.lit 13, .lit 10]) .plus, .endCapture]

def colonItems : List Item :=
  .single (.cls (ch 's')) .star :: .single (.lit (ch ':')) .one ::
    .single (.cls (ch 's')) .star :: valueItems

def headerItems : List Item :=
  .startCapture :: .single fieldSet .plus :: .endCapture :: colonItems

theorem headerItems_pattern : pat "([%a-_]+)%s*:%s*([^\r\n]+)" = ⟨false, headerItems⟩ := by decide

theorem field_match (b : Byte) : singleMatch b fieldSet = isFieldByte b := by
  revert b
  refine forall_byte ?_
  decide +kernel

theorem line_match (b : Byte) : singleMatch b (.set true [.lit 13, .lit 10]) = isLineByte b := by
  revert b
  refine forall_byte ?_
  decide +kernel

theorem fieldByte_facts (b : Byte) (h : isFieldByte b = true) :
    isSpace b = false ∧ b ≠ ch ':' ∧ isLineByte b = true := by
  revert h
  revert b
  refine forall_byte ?_
  decide +kernel

/-- A name, blanks, a colon, blanks and a value up to the end of the line. -/
structure FieldText (name blanks blanks' value rest : Bytes) : Prop where
  name_ne : name ≠ []
  nameBytes : ∀ b ∈ name, isFieldByte b = true
  blanks : ∀ b ∈ blanks, isSpace b = true
  blanks' : ∀ b ∈ blanks', isSpace b = true
  value_ne : value ≠ []
  valueBytes : ∀ b ∈ value, isLineByte b = true
  solid : ∀ b t, value = b :: t → isSpace b = false
  ends : ∀ b t, rest = b :: t → isLineByte b = false

theorem doMatch_value {caps : List Capture} (hne : v ≠ []) (hv : ∀ b ∈ v, isLineByte b = true)
    (hrest : ∀ b t, rest = b :: t → isLineByte b = false) :
    doMatch valueItems caps (v ++ rest) = some (rest, caps ++ [.done v]) :=
  doMatch_capture_plus hne (fun b hb => (line_match b).trans (hv b hb))
    (fun b t hb => (line_match b).trans (hrest b t hb)) rfl

theorem FieldText.doMatch {name blanks blanks' value : Bytes}
    (h : FieldText name blanks blanks' value rest) :
    Lua.doMatch headerItems [] (name ++ (blanks ++ ch ':' :: (blanks' ++ (value ++ rest)))) =
      some (rest, [.done name, .done value]) := by
  have hstop : ∀ b t, blanks ++ ch ':' :: (blanks' ++ (value ++ rest)) = b :: t →
      singleMatch b fieldSet = false := by
    intro b t hb
    rw [field_match, Bool.eq_false_iff]
    intro hfield
    obtain ⟨hspace, hcolon, _⟩ := fieldByte_facts b hfield
    cases blanks with
    | nil => exact hcolon (List.cons.inj hb).1.symm
    | cons d blanks =>
      obtain ⟨rfl, _⟩ := List.cons.inj hb
      simp [h.blanks d (List.mem_cons_self ..)] at hspace
  have hsolid : ∀ b t, value ++ rest = b :: t → singleMatch b (.cls (ch 's')) = false := by
    obtain ⟨d, value, rfl⟩ := List.exists_cons_of_ne_nil h.value_ne
    intro b t hb
    obtain ⟨rfl, _⟩ := List.cons.inj hb
    exact h.solid d value rfl
  refine doMatch_capture_plus h.name_ne (fun b hb => (field_match b).trans (h.nameBytes b hb)) hstop
    (doMatch_star h.blanks ?_ ((doMatch_one (by decide)).trans
      (doMatch_star h.blanks' hsolid (doMatch_value h.value_ne h.valueBytes h.ends))))
  rintro b t hb
  obtain ⟨rfl, _⟩ := List.cons.inj hb
  decide

theorem readFields_eq (s : Bytes) : readFields s =
    (gfind ⟨false, headerItems⟩ s).map fun c => (lower (c.getD 0 []), c.getD 1 []) := by
  rw [readFields, headerItems_pattern]

theorem FieldText.readFields {name blanks blanks' value : Bytes}
    (h : FieldText name blanks blanks' value rest) :
    MoonWiki.readFields (name ++ (blanks ++ ch ':' :: (blanks' ++ (value ++ rest)))) =
      (lower name, value) :: MoonWiki.readFields rest := by
  have htext : name ++ (blanks ++ ch ':' :: (blanks' ++ (value ++ rest))) =
      (name ++ (blanks ++ ch ':' :: (blanks' ++ value))) ++ rest := by simp
  have hd := h.doMatch
  rw [htext] at hd ⊢
  rw [readFields_eq, readFields_eq, gfind_hit (matchHere_of_doMatch hd)
    (List.append_ne_nil_of_left_ne_nil h.name_ne _)]
  rfl

theorem readFields_skip (hb : isFieldByte b = false) (s : Bytes) :
    readFields (b :: s) = readFields s := by
  have hhead : matchHere headerItems (b :: s) = none := by
    refine matchHere_head (c := fieldSet) (by decide) fun d t hd => ?_
    obtain ⟨rfl, _⟩ := List.cons.inj hd
    exact (field_match b).trans hb
  rw [readFields_eq, gfind_miss hhead, ← readFields_eq]

theorem readFields_nil : readFields [] = [] := by
  rw [readFields_eq, gfind_nil (matchHere_nil (by decide))]
  rfl

/-! ### The header lines -/

theorem headerText_cons (h : HeaderLine) (headers : List HeaderLine) :
    headerText (h :: headers) = h.text ++ (str "\r\n" ++ headerText headers) := by
  simp [headerText]

theorem readFields_lineEnd (s : Bytes) : readFields (str "\r\n" ++ s) = readFields s :=
  (readFields_skip (by decide) _).trans (readFields_skip (by decide) s)

theorem lineEnd_ends (s : Bytes) (b : Byte) (t : Bytes) (h : str "\r\n" ++ s = b :: t) :
    isLineByte b = false := by
  obtain ⟨rfl, _⟩ := List.cons.inj h
  decide

theorem HeaderLine.nameField (h : HeaderLine) : ∀ b ∈ h.name, isFieldByte b = true := by
  intro b hb
  rcases h.nameBytes b hb with halpha | rfl
  · simp [isFieldByte, halpha]
  · decide

theorem HeaderLine.text_eq (h : HeaderLine) :
    h.text = h.name ++ ch ':' :: ch ' ' :: h.value := by
  have htext : str ": " = [ch ':', ch ' '] := by decide
  rw [HeaderLine.text, htext, List.append_assoc]
  rfl

theorem HeaderLine.text_bytes (h : HeaderLine) : ∀ b ∈ h.text, isLineByte b = true := by
  have hcolon : ∀ b ∈ str ": ", isLineByte b = true := by decide
  intro b hb
  rw [HeaderLine.text] at hb
  rcases List.mem_append.mp hb with hb | hb
  · rcases List.mem_append.mp hb with hb | hb
    · exact (fieldByte_facts b (h.nameField b hb)).2.2
    · exact hcolon b hb
  · exact h.valueBytes b hb

theorem HeaderLine.isBlank_iff (h : HeaderLine) :
    h.isBlank = true ↔ ∀ b ∈ h.value, isSpace b = true := List.all_eq_true

/-- A line with a value is read as it stands. -/
theorem readFields_line {h : HeaderLine} (hvalue : h.isBlank = false) (headers : List HeaderLine) :
    readFields (headerText (h :: headers)) = h.field :: readFields (headerText headers) := by
  have hne : h.value.dropWhile isSpace ≠ [] := by
    intro hnil
    rw [List.dropWhile_eq_nil_iff] at hnil
    rw [HeaderLine.isBlank, Bool.eq_false_iff] at hvalue
    exact hvalue (List.all_eq_true.mpr hnil)
  have hfield : FieldText h.name [] (ch ' ' :: h.value.takeWhile isSpace)
      (h.value.dropWhile isSpace) (str "\r\n" ++ headerText headers) :=
    { name_ne := h.name_ne
      nameBytes := h.nameField
      blanks := by simp
      blanks' := by
        intro b hb
        rcases List.mem_cons.mp hb with rfl | hb
        · decide
        · exact List.mem_takeWhile_imp hb
      value_ne := hne
      valueBytes := fun b hb => h.valueBytes b (List.dropWhile_subset _ hb)
      solid := by
        intro b t hb
        have hhead := List.head_dropWhile_not isSpace hne
        simpa [hb] using hhead
      ends := lineEnd_ends _ }
  have hread := hfield.readFields
  rw [readFields_lineEnd] at hread
  rw [headerText_cons, HeaderLine.field, ← hread, h.text_eq]
  simp only [List.append_assoc, List.cons_append, List.nil_append]
  rw [← List.append_assoc (h.value.takeWhile isSpace), List.takeWhile_append_dropWhile]

/-- A line without a value takes the next line for it. -/
theorem readFields_swallow {h : HeaderLine} (hblank : h.isBlank = true) (next : HeaderLine)
    (headers : List HeaderLine) :
    readFields (headerText (h :: next :: headers)) =
      (lower h.name, next.text) :: readFields (headerText headers) := by
  obtain ⟨d, name, hname⟩ := List.exists_cons_of_ne_nil next.name_ne
  have hd : isFieldByte d = true := next.nameField d (hname ▸ List.mem_cons_self ..)
  have hfield : FieldText h.name [] (ch ' ' :: (h.value ++ str "\r\n")) next.text
      (str "\r\n" ++ headerText headers) :=
    { name_ne := h.name_ne
      nameBytes := h.nameField
      blanks := by simp
      blanks' := by
        have hend : ∀ b ∈ str "\r\n", isSpace b = true := by decide
        intro b hb
        rcases List.mem_cons.mp hb with rfl | hb
        · decide
        · rcases List.mem_append.mp hb with hb | hb
          · exact h.isBlank_iff.mp hblank b hb
          · exact hend b hb
      value_ne := by simp [next.text_eq]
      valueBytes := next.text_bytes
      solid := by
        intro b t hb
        rw [next.text_eq, hname] at hb
        obtain ⟨rfl, _⟩ := List.cons.inj hb
        exact (fieldByte_facts d hd).1
      ends := lineEnd_ends _ }
  have hread := hfield.readFields
  rw [readFields_lineEnd] at hread
  rw [headerText_cons, headerText_cons, ← hread, h.text_eq]
  simp

theorem valueItems_fails {caps : List Capture}
    (h : ∀ b t, v = b :: t → isLineByte b = false) : doMatch valueItems caps v = none := by
  cases v with
  | nil => rfl
  | cons b t =>
    have hb : ¬ singleMatch b (.set true [.lit 13, .lit 10]) = true := by
      simp [line_match, h b t rfl]
    rw [valueItems, doMatch, doMatch, expand, if_neg hb]

/-- Of the last line a blank is taken. -/
theorem readFields_last {h : HeaderLine} (hblank : h.isBlank = true) :
    ∃ b, readFields (headerText [h]) = [(lower h.name, [b])] := by
  obtain ⟨blanks, b, hvalue⟩ : ∃ blanks b, ch ' ' :: h.value = blanks ++ [b] :=
    ⟨_, _, (List.dropLast_append_getLast (List.cons_ne_nil _ _)).symm⟩
  have hspace : ∀ d ∈ blanks ++ [b], isSpace d = true ∧ isLineByte d = true := by
    rw [← hvalue]
    intro d hd
    rcases List.mem_cons.mp hd with rfl | hd
    · decide
    · exact ⟨h.isBlank_iff.mp hblank d hd, h.valueBytes d hd⟩
  obtain ⟨_, hb⟩ := hspace b (by simp)
  have htext : headerText [h] = h.name ++ ch ':' :: (blanks ++ ([b] ++ separator)) := by
    have hend : str "\r\n" ++ str "\r\n" = separator := by decide
    rw [headerText_cons, h.text_eq, hvalue, ← hend]
    simp [headerText]
  have hends : ∀ d t, separator = d :: t → isLineByte d = false := by
    intro d t hd
    obtain ⟨rfl, _⟩ := List.cons.inj hd
    decide
  have hstar : doMatch (.single (.cls (ch 's')) .star :: valueItems) [.done h.name]
      (blanks ++ ([b] ++ separator)) = some (separator, [.done h.name, .done [b]]) := by
    rw [doMatch, expand]
    refine maxExpand_last (fun d hd => (hspace d (List.mem_append_left _ hd)).1)
      (doMatch_value (by simp) (by simpa using hb) hends) ?_
    intro w x hwx hw _
    refine valueItems_fails ?_
    obtain ⟨d, w, rfl⟩ := List.exists_cons_of_ne_nil hw
    have hx : x <:+ separator := ⟨w, (List.cons.inj hwx).2.symm⟩
    intro e t he
    have hmem : e ∈ separator := hx.subset (he ▸ List.mem_cons_self ..)
    have hall : ∀ e ∈ separator, isLineByte e = false := by decide
    exact hall e hmem
  have hm : doMatch headerItems [] (h.name ++ ch ':' :: (blanks ++ ([b] ++ separator))) =
      some (separator, [.done h.name, .done [b]]) := by
    refine doMatch_capture_plus h.name_ne
      (fun b hb => (field_match b).trans (h.nameField b hb)) ?_
      (doMatch_star (u := []) (by simp) ?_ ((doMatch_one (by decide)).trans hstar))
    · intro d t hd
      obtain ⟨rfl, _⟩ := List.cons.inj hd
      decide
    · intro d t hd
      obtain ⟨rfl, _⟩ := List.cons.inj hd
      decide
  have hassoc : h.name ++ ch ':' :: (blanks ++ ([b] ++ separator)) =
      (h.name ++ ch ':' :: (blanks ++ [b])) ++ separator := by simp
  refine ⟨b, ?_⟩
  rw [hassoc] at hm htext
  rw [readFields_eq, htext, gfind_hit (matchHere_of_doMatch hm)
    (List.append_ne_nil_of_left_ne_nil h.name_ne _), List.map_cons, ← readFields_eq]
  have hrest : readFields separator = [] :=
    (readFields_lineEnd _).trans ((readFields_lineEnd []).trans readFields_nil)
  rw [hrest]
  rfl

/-- How many bytes of values were read. -/
def valueTotal (fields : List (Bytes × Bytes)) : Nat := (fields.map fun field => field.2.length).sum

theorem valueTotal_cons (field : Bytes × Bytes) (fields : List (Bytes × Bytes)) :
    valueTotal (field :: fields) = field.2.length + valueTotal fields := rfl

/-- A line without a value takes a value that is no line's. -/
theorem readFields_headers (headers : List HeaderLine) :
    (∀ h ∈ headers, h.isBlank = false) ∧
        readFields (headerText headers) = headers.map HeaderLine.field ∨
      (∃ h ∈ headers, h.isBlank = true) ∧
        valueTotal (headers.map HeaderLine.field) <
          valueTotal (readFields (headerText headers)) := by
  induction hn : headers.length using Nat.strong_induction_on generalizing headers with
  | _ n ih =>
    rcases headers with _ | ⟨h, headers⟩
    · refine .inl ⟨by simp, ?_⟩
      exact (readFields_lineEnd []).trans readFields_nil
    · have hle : ∀ rest : List HeaderLine, rest.length < n →
          valueTotal (rest.map HeaderLine.field) ≤ valueTotal (readFields (headerText rest)) := by
        intro rest hrest
        rcases ih rest.length hrest rest rfl with ⟨_, heq⟩ | ⟨_, hlt⟩
        · rw [heq]
        · exact Nat.le_of_lt hlt
      cases hblank : h.isBlank with
      | false =>
        have hlen : headers.length < n := by
          rw [← hn]
          exact Nat.lt_succ_self _
        have hline := readFields_line hblank headers
        rcases ih headers.length hlen headers rfl with ⟨hall, heq⟩ | ⟨⟨g, hg, hgblank⟩, hlt⟩
        · refine .inl ⟨by simpa [hblank] using hall, ?_⟩
          rw [hline, heq]
          rfl
        · refine .inr ⟨⟨g, List.mem_cons_of_mem _ hg, hgblank⟩, ?_⟩
          rw [hline, List.map_cons, valueTotal_cons, valueTotal_cons]
          omega
      | true =>
        have hfield : h.field.2 = [] :=
          List.dropWhile_eq_nil_iff.mpr (h.isBlank_iff.mp hblank)
        refine .inr ⟨⟨h, List.mem_cons_self .., hblank⟩, ?_⟩
        rcases headers with _ | ⟨next, headers⟩
        · obtain ⟨b, hlast⟩ := readFields_last hblank
          rw [hlast, List.map_cons, valueTotal_cons, valueTotal_cons, hfield]
          simp [valueTotal]
        · have hlen : headers.length < n := by
            rw [← hn]
            simp
          have hnext := hle headers hlen
          have htext : next.field.2.length < next.text.length := by
            have hdrop : next.field.2.length ≤ next.value.length :=
              (List.dropWhile_suffix _).length_le
            rw [next.text_eq, List.length_append, List.length_cons, List.length_cons]
            omega
          rw [readFields_swallow hblank, List.map_cons, List.map_cons, valueTotal_cons,
            valueTotal_cons, valueTotal_cons, hfield, List.length_nil]
          dsimp only
          omega

/-! ### The request line -/

theorem namesField_cons {line : Bytes} (hline : NamesField line) (b : Byte) :
    NamesField (b :: line) := by
  obtain ⟨x, d, blanks, y, rfl, hd, hblanks⟩ := hline
  exact ⟨b :: x, d, blanks, y, rfl, hd, hblanks⟩

theorem digit_noField (b : Byte) (h : isDigit b = true) :
    isFieldByte b = false ∧ isSpace b = false := by
  revert h
  revert b
  refine forall_byte ?_
  decide +kernel

/-- A match that begins in a line that ends in a digit reaches its colon in the line. -/
theorem namesField_of_match {line r : Bytes} {m : Match} (hline : EndsIn isDigit line)
    (hm : matchHere headerItems (line ++ r) = some m) :
    ∃ name blanks y, line = name ++ (blanks ++ ch ':' :: y) ∧ name ≠ [] ∧
      (∀ b ∈ name, isFieldByte b = true) ∧ ∀ b ∈ blanks, isSpace b = true := by
  obtain ⟨⟨rest, caps⟩, hd, _⟩ := Option.map_eq_some_iff.mp hm
  rw [headerItems, doMatch] at hd
  obtain ⟨name, s, hs, hne, hname, hcapture⟩ := doMatch_plus_sound hd
  rw [hs] at hcapture
  have hcolon : doMatch colonItems [.done name] s = some (rest, caps) :=
    (doMatch_endCapture name s).symm.trans hcapture
  obtain ⟨blanks, t, rfl, hblanks, hone⟩ := doMatch_star_sound hcolon
  obtain ⟨b, t, rfl, hb, _⟩ := doMatch_one_sound hone
  obtain rfl : b = ch ':' := (singleMatch_lit _ _).mp hb
  refine ⟨name, blanks, ?_⟩
  have hsplit : line ++ r = (name ++ blanks) ++ ch ':' :: t := by rw [hs, List.append_assoc]
  have hlast : ∀ u, name ++ blanks ≠ line ++ u := by
    intro u hu
    obtain ⟨init, d, rfl, hdigit⟩ := hline
    have hmem : d ∈ name ++ blanks := by simp [hu]
    obtain ⟨hfield, hspace⟩ := digit_noField d hdigit
    rcases List.mem_append.mp hmem with hmem | hmem
    · simp [← field_match, hname d hmem] at hfield
    · simp [← blank_match, hblanks d hmem] at hspace
  rcases List.append_eq_append_iff.mp hsplit with ⟨u, hu, _⟩ | ⟨u, hu, ht⟩
  · exact absurd hu (hlast u)
  · cases u with
    | nil => exact absurd hu.symm (by simpa using hlast [])
    | cons c u =>
      obtain ⟨rfl, _⟩ := List.cons.inj ht
      exact ⟨u, by rw [hu, List.append_assoc], hne,
        fun b hb => (field_match b).symm.trans (hname b hb), hblanks⟩

/-- After its first field the rest of the line is a value. -/
theorem fieldText_line {name blanks y : Bytes}
    (hline : EndsIn isDigit (name ++ (blanks ++ ch ':' :: y))) (hne : name ≠ [])
    (hname : ∀ b ∈ name, isFieldByte b = true) (hblanks : ∀ b ∈ blanks, isSpace b = true)
    (hy : ∀ b ∈ y, isLineByte b = true) (X : Bytes) :
    FieldText name blanks (y.takeWhile isSpace) (y.dropWhile isSpace) (str "\r\n" ++ X) := by
  have hvalue : y.dropWhile isSpace ≠ [] := by
    have hsuffix : ch ':' :: y <:+ name ++ (blanks ++ ch ':' :: y) :=
      (List.suffix_append _ _).trans (List.suffix_append _ _)
    obtain ⟨init, d, hsplit, hd⟩ := hline.of_suffix hsuffix (List.cons_ne_nil _ _)
    obtain ⟨_, hspace⟩ := digit_noField d hd
    intro hnil
    have hall := List.dropWhile_eq_nil_iff.mp hnil
    have hlast : d ∈ ch ':' :: y := by simp [hsplit]
    rcases List.mem_cons.mp hlast with rfl | hlast
    · exact absurd hd (by decide)
    · simp [hall d hlast] at hspace
  exact
    { name_ne := hne
      nameBytes := hname
      blanks := hblanks
      blanks' := fun b hb => List.mem_takeWhile_imp hb
      value_ne := hvalue
      valueBytes := fun b hb => hy b (List.dropWhile_subset _ hb)
      solid := by
        intro b t hb
        have hhead := List.head_dropWhile_not isSpace hvalue
        simpa [hb] using hhead
      ends := lineEnd_ends X }

theorem fieldText_split (name blanks y X : Bytes) :
    name ++ (blanks ++ ch ':' :: y) ++ (str "\r\n" ++ X) =
      name ++ (blanks ++ ch ':' :: (y.takeWhile isSpace ++
        (y.dropWhile isSpace ++ (str "\r\n" ++ X)))) := by
  rw [← List.append_assoc (y.takeWhile isSpace), List.takeWhile_append_dropWhile]
  simp

/-- The request line gives no field, or one. -/
theorem readFields_first {line : Bytes} (hline : line = [] ∨ EndsIn isDigit line)
    (hbytes : ∀ b ∈ line, isLineByte b = true) (X : Bytes) :
    ¬ NamesField line ∧ readFields (line ++ (str "\r\n" ++ X)) = readFields X ∨
      NamesField line ∧ ∃ name value, value ≠ [] ∧
        readFields (line ++ (str "\r\n" ++ X)) = (name, value) :: readFields X := by
  induction line with
  | nil =>
    refine .inl ⟨?_, readFields_lineEnd X⟩
    rintro ⟨x, b, blanks, y, hnil, _⟩
    simp at hnil
  | cons b line ih =>
    have hends : EndsIn isDigit (b :: line) := hline.resolve_left (List.cons_ne_nil b line)
    cases hm : matchHere headerItems (b :: line ++ (str "\r\n" ++ X)) with
    | some m =>
      obtain ⟨name, blanks, y, hsplit, hne, hname, hblanks⟩ := namesField_of_match hends hm
      rw [hsplit] at hends hbytes ⊢
      have hy : ∀ d ∈ y, isLineByte d = true := fun d hd => hbytes d (by simp [hd])
      have hfield := fieldText_line hends hne hname hblanks hy X
      refine .inr ⟨?_, lower name, y.dropWhile isSpace, hfield.value_ne, ?_⟩
      · refine ⟨name.dropLast, name.getLast hne, blanks, y, ?_,
          hname _ (List.getLast_mem hne), hblanks⟩
        conv_lhs => rw [← List.dropLast_append_getLast hne]
        simp
      · rw [fieldText_split, hfield.readFields, readFields_lineEnd]
    | none =>
      have htail : line = [] ∨ EndsIn isDigit line := by
        by_cases hnil : line = []
        · exact .inl hnil
        · exact .inr (hends.of_suffix (List.suffix_cons b line) hnil)
      have hskip : readFields (b :: line ++ (str "\r\n" ++ X)) =
          readFields (line ++ (str "\r\n" ++ X)) := by
        rw [List.cons_append] at hm ⊢
        rw [readFields_eq, gfind_miss hm, ← readFields_eq]
      rw [hskip]
      rcases ih htail fun d hd => hbytes d (List.mem_cons_of_mem _ hd) with
        ⟨hno, heq⟩ | ⟨hnames, hread⟩
      · refine .inl ⟨?_, heq⟩
        rintro ⟨x, d, blanks, y, hsplit, hd, hblanks⟩
        cases x with
        | nil =>
          have hsplit : b :: line = [d] ++ (blanks ++ ch ':' :: y) := hsplit
          rw [hsplit] at hends hbytes hm
          have hy : ∀ d ∈ y, isLineByte d = true := fun d hd => hbytes d (by simp [hd])
          have hfield := fieldText_line hends (by simp) (by simpa using hd) hblanks hy X
          have hmatch := hfield.doMatch
          rw [← fieldText_split] at hmatch
          rw [matchHere, hmatch] at hm
          cases hm
        | cons c x => exact hno ⟨x, d, blanks, y, (List.cons.inj hsplit).2, hd, hblanks⟩
      · exact .inr ⟨namesField_cons hnames b, hread⟩

namespace RequestBlock

variable (block : RequestBlock)

theorem protocol_version : isVersion block.protocol = true :=
  isVersion_iff.mpr ⟨block.major, block.minor, rfl, block.majorDigit, block.minorDigit⟩

theorem protocol_bytes : ∀ b ∈ block.protocol, isSpace b = false ∧ isLineByte b = true := by
  have htext : ∀ b ∈ str "HTTP/" ++ [ch '.'], isSpace b = false ∧ isLineByte b = true := by decide
  have hdigit : ∀ b, isDigit b = true → isSpace b = false ∧ isLineByte b = true := by
    refine forall_byte ?_
    decide +kernel
  intro b hb
  rcases List.mem_append.mp hb with hb | hb
  · exact htext b (List.mem_append_left _ hb)
  · rcases List.mem_cons.mp hb with rfl | hb
    · exact hdigit _ block.majorDigit
    · rcases List.mem_cons.mp hb with rfl | hb
      · decide
      · rw [List.mem_singleton.mp hb]
        exact hdigit _ block.minorDigit

theorem method_solid : ∀ b ∈ block.method, isSpace b = false := fun b hb =>
  upper_not_space b (block.methodBytes b hb)

theorem firstLine_ends : EndsIn isDigit block.firstLine := by
  refine ⟨block.method ++ str " " ++ block.uri ++ str " " ++ str "HTTP/" ++
    [block.major, ch '.'], block.minor, ?_, block.minorDigit⟩
  simp [firstLine, protocol]

theorem firstLine_bytes : ∀ b ∈ block.firstLine, isLineByte b = true := by
  have hsolid : ∀ b, isSpace b = false → isLineByte b = true := by
    refine forall_byte ?_
    decide +kernel
  have hspace : ∀ b ∈ str " ", isLineByte b = true := by decide
  intro b hb
  simp only [firstLine, List.mem_append] at hb
  rcases hb with (((hb | hb) | hb) | hb) | hb
  · exact hsolid b (block.method_solid b hb)
  · exact hspace b hb
  · exact hsolid b (block.uriBytes b hb)
  · exact hspace b hb
  · exact (block.protocol_bytes b hb).2

theorem words_text : words block.text =
    block.method :: block.uri :: block.protocol :: words (headerText block.headers) := by
  have htext : block.text = block.method ++ ch ' ' :: (block.uri ++ ch ' ' ::
      (block.protocol ++ 13 :: (10 :: headerText block.headers))) := by
    have hspace : str " " = [ch ' '] := by decide
    have hend : str "\r\n" = [13, 10] := by decide
    simp [text, firstLine, hspace, hend]
  have hne : block.protocol ≠ [] := by simp [protocol]
  rw [htext, words_word block.method_ne block.method_solid (by decide),
    words_word block.uri_ne block.uriBytes (by decide),
    words_word hne (fun b hb => (block.protocol_bytes b hb).1) (by decide),
    words_blank (by decide)]

theorem lineTriples_text : lineTriples (words block.text) =
    [block.method, block.uri, block.protocol] ::
      lineTriples (words (headerText block.headers)) := by
  have hmethod : methodOf block.method = block.method :=
    List.rtakeWhile_eq_self_iff.mpr block.methodBytes
  rw [words_text, lineTriples,
    if_pos ⟨hmethod.symm ▸ block.method_ne, block.protocol_version⟩, hmethod]

end RequestBlock

theorem headerText_ends (headers : List HeaderLine) : EndsIn isSpace (headerText headers) := by
  have hend : EndsIn isSpace (str "\r\n") := ⟨[13], 10, by decide, by decide⟩
  exact hend.append _

theorem headerText_separator (headers : List HeaderLine) :
    separator <:+ str "\r\n" ++ headerText headers := by
  induction headers with
  | nil =>
    have hend : str "\r\n" ++ str "\r\n" = separator := by decide
    exact hend ▸ List.suffix_rfl
  | cons h headers ih =>
    rw [headerText_cons]
    exact ih.trans ((List.suffix_append _ _).trans (List.suffix_append _ _))

/-- An empty line stands right after a line, or further on. -/
theorem separator_after {line rest u v : Bytes} (hline : ∀ b ∈ line, isLineByte b = true)
    (h : line ++ (str "\r\n" ++ rest) = u ++ (separator ++ v)) :
    rest = str "\r\n" ++ v ∨ ∃ u', rest = u' ++ (separator ++ v) := by
  have hend : str "\r\n" = [13, 10] := by decide
  rw [hend] at h ⊢
  have hright : [13, 10] ++ rest = separator ++ v → rest = [13, 10] ++ v := fun heq =>
    (List.cons.inj (List.cons.inj heq).2).2
  rcases List.append_eq_append_iff.mp h with ⟨w, rfl, hw⟩ | ⟨w, rfl, hw⟩
  · rcases w with _ | ⟨c, _ | ⟨d, w⟩⟩
    · exact .inl (hright hw)
    · exact absurd (List.cons.inj (List.cons.inj hw).2).1 (by decide)
    · exact .inr ⟨w, (List.cons.inj (List.cons.inj hw).2).2⟩
  · cases w with
    | nil => exact .inl (hright hw.symm)
    | cons c w =>
      obtain ⟨rfl, _⟩ := List.cons.inj hw
      exact absurd (hline 13 (by simp)) (by decide)

/-- The empty line after the header lines is the first one. -/
theorem headerText_once {line : Bytes} (hline : ∀ b ∈ line, isLineByte b = true)
    (headers : List HeaderLine) : OnceBefore (line ++ (str "\r\n" ++ headerText headers)) [] := by
  induction headers generalizing line with
  | nil =>
    intro u v huv
    rw [List.append_assoc] at huv
    have hend : headerText [] = [13, 10] := by decide
    rw [hend] at huv
    rcases separator_after hline huv with heq | ⟨u', heq⟩
    · exact (List.cons.inj (List.cons.inj heq).2).2.symm
    · have hlen := congrArg List.length heq
      simp [separator] at hlen
      omega
  | cons h headers ih =>
    intro u v huv
    rw [List.append_assoc] at huv
    rw [headerText_cons] at huv
    rcases separator_after hline huv with heq | ⟨u', heq⟩
    · obtain ⟨b, name, hname⟩ := List.exists_cons_of_ne_nil h.name_ne
      rw [h.text_eq, hname] at heq
      obtain ⟨rfl, _⟩ := List.cons.inj heq
      exact absurd (h.nameField 13 (hname ▸ List.mem_cons_self ..)) (by decide)
    · exact ih h.text_bytes u' v (by rw [heq, List.append_assoc])

theorem lineTriples_three {triple : List Bytes} (ws : List Bytes) (h : triple ∈ lineTriples ws) :
    ∃ method uri protocol, triple = [method, uri, protocol] := by
  induction ws using lineTriples.induct with
  | case1 w₁ w₂ w₃ ws hline ih =>
    rw [lineTriples, if_pos hline] at h
    rcases List.mem_cons.mp h with rfl | h
    · exact ⟨_, _, _, rfl⟩
    · exact ih h
  | case2 w₁ w₂ w₃ ws hline ih =>
    rw [lineTriples, if_neg hline] at h
    exact ih h
  | case3 ws hshort =>
    rw [lineTriples.eq_2 ws hshort] at h
    cases h

namespace RequestBlock

variable (block : RequestBlock)

/-- The last request line found wins. -/
theorem requestLine_text : requestLine block.text = some (block.method, block.uri, block.protocol) ↔
    block.LineStands := by
  have hends : EndsIn isSpace block.text := (headerText_ends block.headers).append _
  have hlast : ((lineTriples (words block.text)).getLast?) =
      some (((lineTriples (words (headerText block.headers))).getLast?).getD
        [block.method, block.uri, block.protocol]) := by
    rw [block.lineTriples_text, List.getLast?_cons]
  rw [requestLine, request_pattern, gfind_request (.inr hends), hlast, LineStands]
  cases htriple : (lineTriples (words (headerText block.headers))).getLast? with
  | none => simp
  | some triple =>
    obtain ⟨method, uri, protocol, rfl⟩ := lineTriples_three _ (List.mem_of_getLast? htriple)
    simp

theorem text_headerBlock : HeaderBlock block.text := by
  have htext : block.text = block.firstLine ++ (str "\r\n" ++ headerText block.headers) :=
    List.append_assoc ..
  rw [htext]
  exact ⟨(headerText_separator block.headers).trans (List.suffix_append _ _),
    headerText_once block.firstLine_bytes block.headers⟩

theorem readFields_text : readFields block.text = block.headers.map HeaderLine.field ↔
    block.FieldsStand := by
  have htext : block.text = block.firstLine ++ (str "\r\n" ++ headerText block.headers) :=
    List.append_assoc ..
  have htotal := readFields_headers block.headers
  rcases readFields_first (.inr block.firstLine_ends) block.firstLine_bytes
    (headerText block.headers) with ⟨hno, hread⟩ | ⟨hnames, name, value, hne, hread⟩
  · rw [htext, hread]
    rcases htotal with ⟨hall, heq⟩ | ⟨⟨h, hh, hblank⟩, hlt⟩
    · exact iff_of_true heq ⟨hno, hall⟩
    · refine iff_of_false ?_ ?_
      · intro heq
        rw [heq] at hlt
        exact Nat.lt_irrefl _ hlt
      · intro hstand
        simp [hstand.values h hh] at hblank
  · refine iff_of_false ?_ fun hstand => hstand.noField hnames
    intro heq
    have hpos := List.length_pos_of_ne_nil hne
    have hsum : valueTotal (block.headers.map HeaderLine.field) =
        value.length + valueTotal (readFields (headerText block.headers)) := by
      rw [← heq, htext, hread]
      rfl
    rcases htotal with ⟨_, heq⟩ | ⟨_, hlt⟩
    · rw [heq] at hsum
      omega
    · omega

end RequestBlock

/-! ### The request read -/

theorem parseOptions_readFields (header : Bytes) :
    parseOptions header .empty = fieldTable (readFields header) := by
  rw [fieldTable, readFields, List.foldl_map]
  rfl

/-- What parsing leaves of a request: the line it found, and the fields if it came to them. -/
structure Parsed (text : Bytes) (r : Request) : Prop where
  header : r.header = text
  method : r.method = (parseRequestLine { header := text }).method
  uri : r.uri = (parseRequestLine { header := text }).uri
  protocol : r.protocol = (parseRequestLine { header := text }).protocol
  options : r.options = fieldTable (fieldsRead r)

/-- The request after the parsing of a block that came without a body. -/
theorem parseHttpRequest_parsed {text : Bytes} {sock : Socket} (sortByDate : DateSort)
    (disk : Disk) (hblock : HeaderBlock text) (hs : sock.stream = text)
    (halloc : sock.alloc 512 = some 512) :
    Parsed text (parseHttpRequest (WikiEngine.new sortByDate sock disk)).2.request := by
  have hpos : 0 < text.length := by
    obtain ⟨line, rfl⟩ := hblock.ended
    simp [separator]
  obtain ⟨sock', hread, hrest, _⟩ := readHeader_arrived hblock halloc
    (by simpa using hs : [] ++ sock.stream = text ++ []) hpos (Nat.lt_succ_self _)
  simp only [List.nil_append, List.length_nil, Nat.sub_zero] at hread
  have hflat := arrived_flatten text.length sock.chunks
  change _ = sock.stream at hflat
  have hlen : text.length ≤ (arrived text.length sock.chunks).1.length := by
    refine arrived_length ?_
    change _ ≤ sock.stream.length
    rw [hs]
  have hbuffer : (arrived text.length sock.chunks).1 = text := by
    rw [hs] at hflat
    exact List.IsPrefix.eq_of_length_le ⟨_, hflat⟩ hlen
  rw [hbuffer] at hread
  have hsplit : splitHeader text = some (text, []) := by
    have honce := splitHeader_once (p := []) hblock (by simpa using hblock.first)
    rwa [List.append_nil] at honce
  obtain ⟨line, hline⟩ : ∃ r, parseRequestLine { header := text } = r := ⟨_, rfl⟩
  have hheader : line.header = text := hline ▸ parseRequestLine_header _
  have hoptions : line.options = .empty := hline ▸ parseRequestLine_options _
  rw [parseHttpRequest_split hread hsplit hline]
  have hfailed : httpMethods (upper line.method) ≠ some true → Parsed text line := by
    intro hmethod
    have hnone : fieldsRead line = [] := if_neg hmethod
    exact ⟨hheader, hline ▸ rfl, hline ▸ rfl, hline ▸ rfl, by rw [hoptions, hnone]; rfl⟩
  rcases hmethod : httpMethods (upper line.method) with _ | _ | _
  · exact hfailed (by simp [hmethod])
  · exact hfailed (by simp [hmethod])
  · rcases hbody : readBody { WikiEngine.new sortByDate sock disk with
      socket := sock', request := parseHeaderFields line } with ⟨result, s'⟩
    obtain ⟨⟨postData, form, hkept⟩, _⟩ := readBody_kept hbody
    dsimp only
    rw [hkept]
    refine ⟨hheader, hline ▸ rfl, hline ▸ rfl, hline ▸ rfl, ?_⟩
    have hfields : fieldsRead { parseHeaderFields line with postData, form } =
        readFields text := (if_pos hmethod).trans (congrArg readFields hheader)
    have hparsed : (parseHeaderFields line).options = parseOptions text .empty := by
      rw [parseHeaderFields, hheader, hoptions]
    exact (hparsed.trans (parseOptions_readFields text)).trans (congrArg fieldTable hfields.symm)

theorem RequestBlock.lineStands_iff (block : RequestBlock) {r : Request}
    (h : Parsed block.text r) : block.LineStands ↔
      r.method = block.method ∧ r.uri = block.uri ∧ r.protocol = block.protocol := by
  rw [← block.requestLine_text, h.method, h.uri, h.protocol, parseRequestLine]
  rcases requestLine block.text with _ | ⟨method, uri, protocol⟩
  · simp [block.method_ne.symm]
  · simp

/-- `parseHttpRequest` reads a request as its lines say exactly when the lines stand. -/
theorem parseHttpRequest_lines_iff {block : RequestBlock} {sock : Socket} (sortByDate : DateSort)
    (disk : Disk) (hs : sock.stream = block.text) (halloc : sock.alloc 512 = some 512) :
    ReadByLines block (parseHttpRequest (WikiEngine.new sortByDate sock disk)).2.request ↔
      block.Stands := by
  have hparsed := parseHttpRequest_parsed sortByDate disk block.text_headerBlock hs halloc
  generalize (parseHttpRequest (WikiEngine.new sortByDate sock disk)).2.request = r at hparsed ⊢
  have hline := block.lineStands_iff hparsed
  have hfields : r.method = block.method →
      (fieldsRead r = block.headers.map HeaderLine.field ↔
        if httpMethods (upper block.method) = some true then block.FieldsStand
          else block.headers = []) := by
    intro hmethod
    rw [fieldsRead, hmethod, hparsed.header, ← block.readFields_text]
    split_ifs
    · rfl
    · rw [eq_comm, List.map_eq_nil_iff]
  constructor
  · intro h
    exact ⟨hline.mpr ⟨h.method, h.uri, h.protocol⟩, (hfields h.method).mp h.fields⟩
  · rintro ⟨hstands, hrest⟩
    obtain ⟨hmethod, huri, hprotocol⟩ := hline.mp hstands
    have hread := (hfields hmethod).mpr hrest
    exact ⟨hmethod, huri, hprotocol, hread, hparsed.options.trans (congrArg fieldTable hread)⟩

/-- A field of one byte, read with its line. -/
theorem parseHttpRequest_lines_host :
    let block : RequestBlock :=
      ⟨str "GET", str "/", ch '1', ch '1', [⟨str "Host", str "a", by decide, by decide, by decide⟩],
        by decide, by decide, by decide, by decide, by decide, by decide⟩
    let sock : Socket := ⟨[block.text], by decide, fun n => some n.floor.toNat⟩
    ReadByLines block (parseHttpRequest (WikiEngine.new .insertion sock .empty)).2.request := by
  intro block sock
  have hs : sock.stream = block.text := List.append_nil _
  refine (parseHttpRequest_lines_iff .insertion .empty hs (by decide)).mpr ⟨?_, ?_⟩
  · intro triple htriple
    have hnone : (lineTriples (words (headerText block.headers))).getLast? = none := by
      decide +kernel
    rw [hnone] at htriple
    cases htriple
  · rw [if_pos (by decide)]
    refine ⟨?_, by decide⟩
    rintro ⟨x, b, blanks, y, hsplit, _⟩
    have hcolon : ch ':' ∈ block.firstLine := by simp [hsplit]
    exact absurd hcolon (by decide)

/-- The line of a field without a value takes the next line. -/
theorem parseHttpRequest_swallows :
    let block : RequestBlock :=
      ⟨str "GET", str "/", ch '1', ch '1',
        [⟨str "A", [], by decide, by decide, by decide⟩,
          ⟨str "B", str "v", by decide, by decide, by decide⟩],
        by decide, by decide, by decide, by decide, by decide, by decide⟩
    let sock : Socket := ⟨[block.text], by decide, fun n => some n.floor.toNat⟩
    let r := (parseHttpRequest (WikiEngine.new .insertion sock .empty)).2.request
    block.text = str "GET / HTTP/1.1\r\nA: \r\nB: v\r\n\r\n" ∧ sock.stream = block.text ∧
      sock.alloc 512 = some 512 ∧ r.options.get (str "a") = some (str "B: v") ∧
      r.options.get (str "b") = none ∧ ¬ ReadByLines block r := by
  intro block sock r
  have hb : r.options.get (str "b") = none := by decide +kernel
  refine ⟨by decide, List.append_nil _, by decide, by decide +kernel, hb, ?_⟩
  intro h
  rw [h.options] at hb
  exact absurd hb (by decide)

end MoonWiki
