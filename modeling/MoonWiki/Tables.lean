import MoonWiki.Lua.Passes
import MoonWiki.RenderHistory

/-! Tables: the rows of a sequence of lines, and the cells of a row. -/
namespace MoonWiki
open Lua

def bar : Byte := ch '|'

/-! ### Rows -/

/-- A cell: its text, and how many bars follow it. -/
structure Cell where
  text : Bytes
  bars : Nat
  nonempty : text ≠ []
  no_bar : bar ∉ text
  followed : 0 < bars

def Cell.source (c : Cell) : Bytes := c.text ++ List.replicate c.bars bar

/-- A row: leading bars and cells, of two characters at least. -/
structure Row where
  leading : Nat
  cells : List Cell
  opened : 0 < leading
  closed : 1 < leading ∨ cells ≠ []

def Row.source (r : Row) : Bytes := List.replicate r.leading bar ++ r.cells.flatMap Cell.source

/-- A row with blanks around it. -/
structure TableLine where
  before : Bytes
  row : Row
  after : Bytes
  before_blank : ∀ b ∈ before, isSpace b
  after_blank : ∀ b ∈ after, isSpace b

def TableLine.source (l : TableLine) : Bytes := l.before ++ l.row.source ++ l.after

/-! ### Cells -/

/-- Blanks, a star, the text, a star, blanks. -/
def IsHeading (cell text : Bytes) : Prop :=
  ∃ before after : Bytes, (∀ b ∈ before, isSpace b) ∧ (∀ b ∈ after, isSpace b) ∧
    cell = before ++ ch '*' :: (text ++ ch '*' :: after)

def Cell.attrs (c : Cell) : List (String × Bytes) :=
  if c.bars = 1 then [] else [("colspan", decimal c.bars)]

/-- The text between the stars of a heading. -/
def headingText (cell : Bytes) : Option Bytes :=
  match cell.dropWhile isSpace with
  | [] => none
  | b :: rest =>
    match rest.reverse.dropWhile isSpace with
    | [] => none
    | c :: text => if b = ch '*' ∧ c = ch '*' then some text.reverse else none

/-- What a cell is rendered as: a heading holds the text between the stars. -/
def Cell.html (c : Cell) : Bytes :=
  match headingText c.text with
  | some text => htk "TH" c.attrs [text]
  | none => htk "TD" c.attrs [c.text]

theorem dropWhile_blanks {before : Bytes} (h : ∀ b ∈ before, isSpace b) (s : Bytes) :
    (before ++ ch '*' :: s).dropWhile isSpace = ch '*' :: s := by
  rw [List.dropWhile_append_of_pos h]
  exact List.dropWhile_cons_of_neg (by decide)

theorem blanks_dropWhile (s : Bytes) :
    ∃ before : Bytes, (∀ b ∈ before, isSpace b) ∧ s = before ++ s.dropWhile isSpace :=
  ⟨s.takeWhile isSpace, fun _ hb => List.mem_takeWhile_imp hb,
    (List.takeWhile_append_dropWhile ..).symm⟩

theorem headingText_iff {cell text : Bytes} :
    headingText cell = some text ↔ IsHeading cell text := by
  constructor
  · intro h
    obtain ⟨before, hbefore, hcell⟩ := blanks_dropWhile cell
    rw [headingText] at h
    cases hdrop : cell.dropWhile isSpace with
    | nil => simp [hdrop] at h
    | cons b rest =>
      obtain ⟨after, hafter, hrest⟩ := blanks_dropWhile rest.reverse
      simp only [hdrop] at h
      cases hdrop' : rest.reverse.dropWhile isSpace with
      | nil => simp [hdrop'] at h
      | cons c mid =>
        simp only [hdrop'] at h
        split_ifs at h with hstars
        obtain ⟨rfl, rfl⟩ := hstars
        obtain rfl := Option.some.inj h
        rw [hdrop'] at hrest
        refine ⟨before, after.reverse, hbefore, fun b hb => hafter b (by simpa using hb), ?_⟩
        rw [hcell, hdrop, List.reverse_eq_iff.mp hrest]
        simp
  · rintro ⟨before, after, hbefore, hafter, rfl⟩
    have hreverse :
        (text ++ ch '*' :: after).reverse = after.reverse ++ ch '*' :: text.reverse := by
      simp
    rw [headingText, dropWhile_blanks hbefore]
    dsimp only
    rw [hreverse, dropWhile_blanks fun b hb => hafter b (by simpa using hb)]
    simp

theorem heading_pattern_star : pat "^%s*%*(.*)%*%s*$" =
    ⟨true, [.single (.cls (ch 's')) .star, .single (.cls (ch '*')) .one, .startCapture,
      .single .any .star, .endCapture, .single (.cls (ch '*')) .one,
      .single (.cls (ch 's')) .star, .eos]⟩ := by decide

theorem singleMatch_space (b : Byte) : singleMatch b (.cls (ch 's')) = isSpace b := rfl

theorem singleMatch_star (b : Byte) : singleMatch b (.cls (ch '*')) = true ↔ b = ch '*' := by
  rw [singleMatch]
  exact matchClass_literal (by decide) b

/-- Blanks at the end of a text, whatever was captured before. -/
theorem doMatch_blanks_eos {caps : List Capture} {s : Bytes} (hs : ∀ b ∈ s, isSpace b) :
    doMatch [.single (.cls (ch 's')) .star, .eos] caps s = some ([], caps) := by
  have hstar : doMatch [.single (.cls (ch 's')) .star, .eos] caps (s ++ []) = some ([], caps) :=
    doMatch_star hs (by simp) rfl
  rwa [List.append_nil] at hstar

theorem doMatch_blanks_eos_sound {caps : List Capture} {s : Bytes} {r : Bytes × List Capture}
    (h : doMatch [.single (.cls (ch 's')) .star, .eos] caps s = some r) : ∀ b ∈ s, isSpace b := by
  obtain ⟨u, v, rfl, hu, hv⟩ := doMatch_star_sound h
  rw [doMatch] at hv
  split_ifs at hv with hnil
  subst hnil
  simpa [singleMatch_space] using hu

/-- The text between a first and a last mark is taken whole, when only blanks follow the last. -/
theorem doMatch_between {is : List Item} {caps : List Capture} {text rest : Bytes}
    {r : Bytes × List Capture} (hr : doMatch is caps rest = some r)
    (hlast : ∀ w x, rest = w ++ x → w ≠ [] → doMatch is caps x = none) :
    doMatch (.single .any .star :: is) caps (text ++ rest) = some r := by
  rw [doMatch, expand]
  exact maxExpand_last (fun _ _ => rfl) hr fun w x hx hw _ => hlast w x hx hw

theorem capture_of_doMatch {p : Pattern} {s r t : Bytes} {caps : List Capture}
    (hanchor : p.anchor = true) (h : doMatch p.items [] s = some (r, .done t :: caps)) :
    capture? p s = some t := by
  simp [capture?, find, hanchor, matchHere, h, pushCaptures]

theorem doMatch_of_capture {p : Pattern} {s : Bytes} (hanchor : p.anchor = true)
    (h : (capture? p s).isSome) : ∃ r, doMatch p.items [] s = some r := by
  cases hd : doMatch p.items [] s with
  | none => simp [capture?, find, hanchor, matchHere, hd] at h
  | some r => exact ⟨r, rfl⟩

theorem capture_heading {cell text : Bytes} (h : IsHeading cell text) :
    capture? (pat "^%s*%*(.*)%*%s*$") cell = some text := by
  obtain ⟨before, after, hbefore, hafter, rfl⟩ := h
  have hd : doMatch (pat "^%s*%*(.*)%*%s*$").items []
      (before ++ ch '*' :: (text ++ ch '*' :: after)) = some ([], [.done text]) := by
    rw [heading_pattern_star]
    refine doMatch_star hbefore ?_ ?_
    · rintro b t hb
      obtain ⟨rfl, _⟩ := List.cons.inj hb
      decide
    rw [doMatch_one (by decide), doMatch]
    refine doMatch_between ?_ ?_
    · refine (doMatch_endCapture text _).trans ?_
      rw [doMatch_one (by decide)]
      exact doMatch_blanks_eos hafter
    · intro w x hx hw
      have hsub : ∀ b ∈ x, isSpace b := by
        obtain ⟨b, w, rfl⟩ := List.exists_cons_of_ne_nil hw
        have htail := (List.cons.inj hx).2
        exact fun b hb => hafter b (htail ▸ List.mem_append_right w hb)
      rw [doMatch]
      cases x with
      | nil => rfl
      | cons b x =>
        have hb : b ≠ ch '*' := ne_of_test (hsub b (by simp)) (by decide)
        have hmiss : singleMatch b (.cls (ch '*')) = false :=
          Bool.eq_false_iff.mpr fun h => hb ((singleMatch_star b).mp h)
        simp [doMatch, expand, hmiss]
  exact capture_of_doMatch rfl hd

theorem capture_heading_sound {cell : Bytes}
    (h : (capture? (pat "^%s*%*(.*)%*%s*$") cell).isSome) : ∃ text, IsHeading cell text := by
  obtain ⟨r, hd⟩ := doMatch_of_capture rfl h
  rw [heading_pattern_star] at hd
  obtain ⟨before, v, rfl, hbefore, hd⟩ := doMatch_star_sound hd
  obtain ⟨b, v, rfl, hb, hd⟩ := doMatch_one_sound hd
  obtain rfl := (singleMatch_star b).mp hb
  rw [doMatch] at hd
  obtain ⟨text, v, rfl, _, hd⟩ := doMatch_star_sound hd
  rw [doMatch] at hd
  obtain ⟨b, after, rfl, hb, hd⟩ := doMatch_one_sound hd
  obtain rfl := (singleMatch_star b).mp hb
  exact ⟨text, before, after, hbefore, doMatch_blanks_eos_sound hd, rfl⟩

/-- A cell of the source is rendered as it should be. -/
theorem tableCell_html (c : Cell) : tableCell c.text (List.replicate c.bars bar) = c.html := by
  have hattrs : (if (List.replicate c.bars bar).length = 1 then []
      else [("colspan", decimal (List.replicate c.bars bar).length)]) = c.attrs := by
    rw [List.length_replicate, Cell.attrs]
  rw [tableCell, hattrs, Cell.html]
  cases hheading : headingText c.text with
  | some text => rw [capture_heading (headingText_iff.mp hheading)]
  | none =>
    cases hcap : capture? (pat "^%s*%*(.*)%*%s*$") c.text with
    | none => rfl
    | some text' =>
      obtain ⟨text, htext⟩ := capture_heading_sound (by rw [hcap]; rfl)
      rw [headingText_iff.mpr htext] at hheading
      cases hheading

/-! ### Rows of cells -/

theorem cell_pattern : pat "([^|]+)(|+)" =
    ⟨false, [.startCapture, .single (.set true [.lit bar]) .plus, .endCapture, .startCapture,
      .single (.lit bar) .plus, .endCapture]⟩ := by decide

theorem singleMatch_noBar (b : Byte) : singleMatch b (.set true [.lit bar]) = true ↔ b ≠ bar := by
  simpa [singleMatch, matchBracketClass, SetItem.test] using (ne_comm : bar ≠ b ↔ b ≠ bar)

theorem singleMatch_bar (b : Byte) : singleMatch b (.lit bar) = true ↔ b = bar := by
  rw [singleMatch, beq_iff_eq, eq_comm]

theorem matchHere_bar (s : Bytes) : matchHere (pat "([^|]+)(|+)").items (bar :: s) = none := by
  rw [cell_pattern]
  exact matchHere_head rfl fun b t h => by
    obtain ⟨rfl, _⟩ := List.cons.inj h
    decide

/-- The next cell, when no bar follows its bars. -/
theorem matchHere_cell (c : Cell) {rest : Bytes} (hrest : ∀ b t, rest = b :: t → b ≠ bar) :
    matchHere (pat "([^|]+)(|+)").items (c.source ++ rest) =
      some ⟨c.source, [c.text, List.replicate c.bars bar], rest⟩ := by
  have hd : doMatch (pat "([^|]+)(|+)").items [] (c.source ++ rest) =
      some (rest, [.done c.text, .done (List.replicate c.bars bar)]) := by
    rw [cell_pattern, Cell.source, List.append_assoc]
    refine doMatch_capture_plus c.nonempty ?_ ?_ (doMatch_capture_plus ?_ ?_ ?_ rfl)
    · exact fun b hb => (singleMatch_noBar b).mpr fun heq => c.no_bar (heq ▸ hb)
    · intro b t hb
      obtain ⟨n, hn⟩ := Nat.exists_eq_succ_of_ne_zero c.followed.ne'
      rw [hn, List.replicate_succ, List.cons_append] at hb
      obtain ⟨rfl, _⟩ := List.cons.inj hb
      decide
    · simpa using c.followed.ne'
    · exact fun b hb => (singleMatch_bar b).mpr (List.eq_of_mem_replicate hb)
    · intro b t hb
      exact Bool.eq_false_iff.mpr fun h => hrest b t hb ((singleMatch_bar b).mp h)
  exact matchHere_of_doMatch hd

theorem cells_head (cells : List Cell) :
    ∀ b t, cells.flatMap Cell.source = b :: t → b ≠ bar := by
  intro b t h heq
  cases cells with
  | nil => cases h
  | cons c cells =>
    obtain ⟨d, u, hd⟩ := List.exists_cons_of_ne_nil c.nonempty
    rw [List.flatMap_cons, Cell.source, hd] at h
    obtain ⟨rfl, _⟩ := List.cons.inj h
    exact c.no_bar (by rw [hd, ← heq]; simp)

/-- The scan of a row finds its cells, in order. -/
theorem gfind_row (r : Row) :
    gfind (pat "([^|]+)(|+)") r.source =
      r.cells.map fun c => [c.text, List.replicate c.bars bar] := by
  have hcells : ∀ cells : List Cell, gfind (pat "([^|]+)(|+)") (cells.flatMap Cell.source) =
      cells.map fun c => [c.text, List.replicate c.bars bar] := by
    intro cells
    induction cells with
    | nil =>
      rw [cell_pattern]
      exact gfind_nil rfl
    | cons c cells ih =>
      have hm := matchHere_cell c (cells_head cells)
      have hne : c.source ≠ [] := by simp [Cell.source, c.nonempty]
      rw [List.flatMap_cons, List.map_cons, ← ih]
      rw [cell_pattern] at hm ⊢
      exact gfind_hit hm hne
  rw [Row.source, ← hcells]
  induction r.leading with
  | zero => rfl
  | succ n ih =>
    have hmiss := matchHere_bar (List.replicate n bar ++ r.cells.flatMap Cell.source)
    rw [List.replicate_succ, List.cons_append, ← ih]
    rw [cell_pattern] at hmiss ⊢
    exact gfind_miss hmiss

/-! ### Table lines -/

/-- Blanks, a text of two characters or more between bars, blanks. -/
def IsTableLine (line : Bytes) : Prop :=
  ∃ before mid after : Bytes, (∀ b ∈ before, isSpace b) ∧ (∀ b ∈ after, isSpace b) ∧
    line = before ++ bar :: (mid ++ bar :: after)

/-- The text ends in a bar. -/
def EndsInBar (s : Bytes) : Prop := EndsIn (· == bar) s

theorem endsInBar_iff {s : Bytes} : EndsInBar s ↔ ∃ u, s = u ++ [bar] := by
  simp [EndsInBar, EndsIn]

/-- A text that ends in a bar and does not start with one is a sequence of cells. -/
theorem exists_cells {s : Bytes} (hhead : ∀ b t, s = b :: t → b ≠ bar)
    (hend : s ≠ [] → EndsInBar s) : ∃ cells : List Cell, cells.flatMap Cell.source = s := by
  induction hn : s.length using Nat.strong_induction_on generalizing s with
  | _ n ih =>
    by_cases hs : s = []
    · exact ⟨[], hs.symm⟩
    obtain ⟨text, v, hsplit, htext, hv⟩ := exists_run (· != bar) s
    obtain ⟨bars, rest, rfl, hbars, hrest⟩ := exists_run (· == bar) v
    have hnonempty : text ≠ [] := by
      rintro rfl
      obtain ⟨b, t, hbt⟩ := List.exists_cons_of_ne_nil hs
      have hbar := hv b t (hsplit.symm.trans hbt)
      exact hhead b t hbt (by simpa using hbar)
    have hbars_ne : bars ≠ [] := by
      rintro rfl
      obtain ⟨u, hu⟩ := endsInBar_iff.mp (hend hs)
      cases rest with
      | nil =>
        have hmem : bar ∈ text := by
          have htext_eq : text = u ++ [bar] := by simpa using hsplit.symm.trans hu
          simp [htext_eq]
        simpa using htext bar hmem
      | cons b t =>
        have hbar : b = bar := by simpa using hv b t rfl
        have hno : b ≠ bar := by simpa using hrest b t rfl
        exact hno hbar
    have hsuffix : rest <:+ s := ⟨text ++ bars, by rw [hsplit, List.append_assoc]⟩
    have hlen : rest.length < n := by
      have hpos := List.length_pos_iff.mpr hnonempty
      have hsum := congrArg List.length hsplit
      simp only [List.length_append] at hsum
      omega
    obtain ⟨cells, hcells⟩ := ih rest.length hlen (fun b t h => by simpa using hrest b t h)
      (fun hne => (hend hs).of_suffix hsuffix hne) rfl
    have hreplicate : bars = List.replicate bars.length bar :=
      List.eq_replicate_of_mem fun b hb => by simpa using hbars b hb
    refine ⟨⟨text, bars.length, hnonempty, fun h => by simpa using htext bar h,
      List.length_pos_iff.mpr hbars_ne⟩ :: cells, ?_⟩
    rw [List.flatMap_cons, hcells, Cell.source, ← hreplicate, hsplit, List.append_assoc]

/-- What stands between the first and the last bar of a table line is a row. -/
theorem exists_row (mid : Bytes) : ∃ r : Row, r.source = bar :: (mid ++ [bar]) := by
  obtain ⟨bars, rest, hsplit, hbars, hrest⟩ := exists_run (· == bar) (bar :: (mid ++ [bar]))
  have hreplicate : bars = List.replicate bars.length bar :=
    List.eq_replicate_of_mem fun b hb => by simpa using hbars b hb
  have hsuffix : rest <:+ bar :: (mid ++ [bar]) := ⟨bars, hsplit.symm⟩
  have hend : EndsInBar (bar :: (mid ++ [bar])) := endsInBar_iff.mpr ⟨bar :: mid, rfl⟩
  obtain ⟨cells, hcells⟩ := exists_cells (s := rest) (fun b t h => by simpa using hrest b t h)
    fun hne => hend.of_suffix hsuffix hne
  have hopened : 0 < bars.length := by
    rw [List.length_pos_iff]
    rintro rfl
    have hno := hrest bar (mid ++ [bar]) (by simpa using hsplit.symm)
    simp at hno
  have hclosed : 1 < bars.length ∨ cells ≠ [] := by
    by_contra hnone
    push Not at hnone
    have hlen := congrArg List.length hsplit
    rw [List.length_append, ← hcells, hnone.2] at hlen
    simp only [List.length_cons, List.length_append, List.length_nil, List.flatMap_nil] at hlen
    omega
  refine ⟨⟨bars.length, cells, hopened, hclosed⟩, ?_⟩
  rw [Row.source, hcells, ← hreplicate, ← hsplit]

/-- A row starts and ends with a bar. -/
theorem Row.source_bars (r : Row) : ∃ mid, r.source = bar :: (mid ++ [bar]) := by
  obtain ⟨n, hn⟩ := Nat.exists_eq_succ_of_ne_zero r.opened.ne'
  rw [source, hn, List.replicate_succ, List.cons_append]
  rcases r.cells.eq_nil_or_concat with hnil | ⟨cells, c, hcells⟩
  · have hlong : 1 < r.leading := r.closed.resolve_right (by simp [hnil])
    obtain ⟨k, rfl⟩ := Nat.exists_eq_succ_of_ne_zero (by omega : n ≠ 0)
    exact ⟨List.replicate k bar, by simp [hnil, List.replicate_succ']⟩
  · obtain ⟨k, hk⟩ := Nat.exists_eq_succ_of_ne_zero c.followed.ne'
    refine ⟨List.replicate n bar ++ cells.flatMap Cell.source ++ c.text ++ List.replicate k bar, ?_⟩
    simp [hcells, Cell.source, hk, List.replicate_succ']

theorem isTableLine_iff {line : Bytes} : IsTableLine line ↔ ∃ l : TableLine, l.source = line := by
  constructor
  · rintro ⟨before, mid, after, hbefore, hafter, rfl⟩
    obtain ⟨r, hr⟩ := exists_row mid
    exact ⟨⟨before, r, after, hbefore, hafter⟩, by simp [TableLine.source, hr]⟩
  · rintro ⟨l, rfl⟩
    obtain ⟨mid, hmid⟩ := l.row.source_bars
    exact ⟨l.before, mid, l.after, l.before_blank, l.after_blank, by simp [TableLine.source, hmid]⟩

theorem capture_tableLine (l : TableLine) :
    capture? (pat "^%s*(|.*|)%s*$") l.source = some l.row.source := by
  obtain ⟨mid, hmid⟩ := l.row.source_bars
  have hline : l.source = l.before ++ (bar :: (mid ++ [bar]) ++ l.after) := by
    rw [TableLine.source, hmid, List.append_assoc]
  have hd : doMatch (pat "^%s*(|.*|)%s*$").items [] l.source =
      some ([], [.done (bar :: (mid ++ [bar]))]) := by
    rw [table_pattern, hline]
    refine doMatch_star l.before_blank ?_ ?_
    · rintro b t hb
      obtain ⟨rfl, _⟩ := List.cons.inj hb
      decide
    rw [doMatch, List.cons_append, doMatch_one (by decide), List.append_assoc]
    refine doMatch_between ?_ ?_
    · rw [List.singleton_append, doMatch_one (by decide)]
      have hopen : bar :: (mid ++ bar :: l.after) = bar :: (mid ++ [bar]) ++ l.after := by simp
      rw [hopen]
      exact (doMatch_endCapture (bar :: (mid ++ [bar])) l.after).trans
        (doMatch_blanks_eos l.after_blank)
    · intro w x hx hw
      obtain ⟨b, w, rfl⟩ := List.exists_cons_of_ne_nil hw
      have hsub : ∀ b ∈ x, isSpace b := by
        have htail : l.after = w ++ x := (List.cons.inj hx).2
        exact fun b hb => l.after_blank b (htail ▸ List.mem_append_right w hb)
      cases x with
      | nil => rfl
      | cons c x =>
        have hc : c ≠ bar := ne_of_test (hsub c (by simp)) (by decide)
        have hmiss : singleMatch c (.lit (ch '|')) = false :=
          Bool.eq_false_iff.mpr fun h => hc ((singleMatch_bar c).mp h)
        simp [doMatch, expand, hmiss]
  rw [hmid]
  exact capture_of_doMatch rfl hd

theorem capture_not_tableLine {line : Bytes} (h : ¬ IsTableLine line) :
    capture? (pat "^%s*(|.*|)%s*$") line = none := by
  cases hcap : capture? (pat "^%s*(|.*|)%s*$") line with
  | none => rfl
  | some row =>
    obtain ⟨r, hd⟩ := doMatch_of_capture rfl (by rw [hcap]; rfl)
    rw [table_pattern] at hd
    obtain ⟨before, v, rfl, hbefore, hd⟩ := doMatch_star_sound hd
    rw [doMatch] at hd
    obtain ⟨b, v, rfl, hb, hd⟩ := doMatch_one_sound hd
    obtain rfl := (singleMatch_bar b).mp hb
    obtain ⟨mid, v, rfl, _, hd⟩ := doMatch_star_sound hd
    obtain ⟨b, after, rfl, hb, hd⟩ := doMatch_one_sound hd
    obtain rfl := (singleMatch_bar b).mp hb
    rw [doMatch] at hd
    exact absurd ⟨before, mid, after, hbefore, doMatch_blanks_eos_sound hd, rfl⟩ h

/-! ### Runs of table lines -/

def Row.html (r : Row) : Bytes := htk "TR" [] [r.cells.flatMap Cell.html]

def tableStart : Bytes := str "<TABLE border=\"1\">\n"
def tableEnd : Bytes := str "</TABLE>\n"

/-- A row opens the table when there is none. -/
theorem processTableLine_row (l : TableLine) (st : FormatterState) :
    processTableLine l.source st =
      ((if st.insideTable then [] else tableStart) ++ l.row.html,
        { st with insideTable := true }) := by
  have hcells : (gfind (pat "([^|]+)(|+)") l.row.source).flatMap
      (fun c => tableCell (c.getD 0 []) (c.getD 1 [])) = l.row.cells.flatMap Cell.html := by
    rw [gfind_row, List.flatMap_map]
    exact List.flatMap_congr fun c _ => tableCell_html c
  rw [processTableLine, capture_tableLine]
  dsimp only
  rw [hcells]
  rfl

/-- Another line is returned as it is, and closes the table if there is one. -/
theorem processTableLine_plain {line : Bytes} (h : ¬ IsTableLine line) (st : FormatterState) :
    processTableLine line st =
      (line, if st.insideTable then
        { st with insideTable := false }.addString (some tableEnd) else st) := by
  rw [processTableLine, capture_not_tableLine h]
  dsimp only
  split_ifs <;> rfl

/-- For each line in turn what is added to the result, and what is returned. -/
def tableTranscript : FormatterState → List Bytes → List (Bytes × Bytes)
  | _, [] => []
  | st, line :: lines =>
    let (returned, st') := processTableLine line { st with result := {} }
    (st'.result.contents, returned) :: tableTranscript st' lines

/-- A run of table lines, which may be empty, and the line that ends it. -/
structure TableRun where
  rows : List TableLine
  line : Bytes
  plain : ¬ IsTableLine line

def TableRun.lines (run : TableRun) : List Bytes := run.rows.map TableLine.source ++ [run.line]

/-- One table for the rows of the run, closed before the line that ends it. -/
def TableRun.output (run : TableRun) : List (Bytes × Bytes) :=
  match run.rows with
  | [] => [([], run.line)]
  | l :: rows =>
    ([], tableStart ++ l.row.html) :: rows.map (fun l => ([], l.row.html)) ++
      [(tableEnd, run.line)]

theorem exists_tableRuns {lines : List Bytes}
    (hlast : ∀ line, lines.getLast? = some line → ¬ IsTableLine line) :
    ∃ runs : List TableRun, runs.flatMap TableRun.lines = lines := by
  induction lines with
  | nil => exact ⟨[], rfl⟩
  | cons line lines ih =>
    by_cases hline : IsTableLine line
    · obtain ⟨l, rfl⟩ := isTableLine_iff.mp hline
      cases lines with
      | nil => exact absurd hline (hlast _ rfl)
      | cons next lines =>
        obtain ⟨runs, hruns⟩ := ih fun last h => hlast last (by simpa using h)
        cases runs with
        | nil => cases hruns
        | cons run runs =>
          refine ⟨⟨l :: run.rows, run.line, run.plain⟩ :: runs, ?_⟩
          rw [← hruns]
          rfl
    · cases lines with
      | nil => exact ⟨[⟨[], line, hline⟩], rfl⟩
      | cons next lines =>
        obtain ⟨runs, hruns⟩ := ih fun last h => hlast last (by simpa using h)
        exact ⟨⟨[], line, hline⟩ :: runs, by rw [← hruns]; rfl⟩

theorem transcript_row (l : TableLine) (st : FormatterState) (lines : List Bytes) :
    tableTranscript st (l.source :: lines) =
      ([], (if st.insideTable then [] else tableStart) ++ l.row.html) ::
        tableTranscript { st with insideTable := true, result := {} } lines := by
  rw [tableTranscript, processTableLine_row]
  rfl

theorem transcript_plain {line : Bytes} (h : ¬ IsTableLine line) (st : FormatterState)
    (lines : List Bytes) : ∃ st', st'.insideTable = false ∧
      tableTranscript st (line :: lines) =
        (if st.insideTable then tableEnd else [], line) :: tableTranscript st' lines := by
  rw [tableTranscript, processTableLine_plain h]
  dsimp only
  cases hst : st.insideTable with
  | true => exact ⟨_, rfl, rfl⟩
  | false => exact ⟨_, rfl, rfl⟩

/-- The rest of a run inside a table. -/
theorem transcript_inside {line : Bytes} (h : ¬ IsTableLine line) (rows : List TableLine)
    {st : FormatterState} (hst : st.insideTable = true) (rest : List Bytes) :
    ∃ st', st'.insideTable = false ∧
      tableTranscript st (rows.map TableLine.source ++ line :: rest) =
        rows.map (fun l => ([], l.row.html)) ++ (tableEnd, line) :: tableTranscript st' rest := by
  induction rows generalizing st with
  | nil =>
    obtain ⟨st', hst', hstep⟩ := transcript_plain h st rest
    rw [if_pos hst] at hstep
    exact ⟨st', hst', hstep⟩
  | cons l rows ih =>
    have hinside : { st with insideTable := true, result := {} }.insideTable = true := rfl
    obtain ⟨st', hst', hrest⟩ := ih hinside
    refine ⟨st', hst', ?_⟩
    rw [List.map_cons, List.cons_append, transcript_row, if_pos hst, hrest]
    rfl

/-- A run from outside a table ends outside. -/
theorem transcript_run (run : TableRun) {st : FormatterState} (hst : st.insideTable = false)
    (rest : List Bytes) : ∃ st', st'.insideTable = false ∧
      tableTranscript st (run.lines ++ rest) = run.output ++ tableTranscript st' rest := by
  obtain ⟨rows, line, hline⟩ := run
  rw [TableRun.lines, List.append_assoc, List.singleton_append]
  cases rows with
  | nil =>
    obtain ⟨st', hst', hstep⟩ := transcript_plain hline st rest
    rw [if_neg (by simp [hst])] at hstep
    exact ⟨st', hst', hstep⟩
  | cons l rows =>
    have hinside : { st with insideTable := true, result := {} }.insideTable = true := rfl
    obtain ⟨st', hst', hrest⟩ := transcript_inside hline rows hinside rest
    refine ⟨st', hst', ?_⟩
    rw [List.map_cons, List.cons_append, transcript_row, if_neg (by simp [hst]), hrest]
    simp [TableRun.output]

/-- Every sequence of lines that ends outside a table is made of runs of table lines, each one
rendered as one table with a row for each line and a cell for each text between bars, and of
lines that are returned as they are. -/
theorem tables_lossless {lines : List Bytes} {st : FormatterState} (hst : st.insideTable = false)
    (hlast : ∀ line, lines.getLast? = some line → ¬ IsTableLine line) :
    ∃ runs : List TableRun, runs.flatMap TableRun.lines = lines ∧
      tableTranscript st lines = runs.flatMap TableRun.output := by
  obtain ⟨runs, rfl⟩ := exists_tableRuns hlast
  refine ⟨runs, rfl, ?_⟩
  clear hlast
  induction runs generalizing st with
  | nil => rfl
  | cons run runs ih =>
    obtain ⟨st', hst', hrun⟩ := transcript_run run hst (runs.flatMap TableRun.lines)
    rw [List.flatMap_cons, hrun, ih hst', List.flatMap_cons]

theorem tables_lossless_two_rows :
    ∃ runs : List TableRun,
      runs.flatMap TableRun.lines = [str "| *a* |b||", str " |c| ", str "text"] ∧
        tableTranscript {} [str "| *a* |b||", str " |c| ", str "text"] =
          runs.flatMap TableRun.output := by
  refine tables_lossless rfl fun line h => ?_
  obtain rfl : str "text" = line := by simpa using h
  rintro ⟨before, mid, after, _, _, heq⟩
  have hbar : bar ∈ str "text" := by
    rw [heq]
    simp
  exact absurd hbar (by decide)

end MoonWiki
