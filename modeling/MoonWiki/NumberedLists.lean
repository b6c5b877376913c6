import MoonWiki.BlockQuotes
import MoonWiki.LineUrls
import MoonWiki.ListNesting
import MoonWiki.PageLinks

/-! The style of numbered lists: the tags that the items of a page open. -/
namespace MoonWiki
open Lua Markup

/-! ### Start tags -/

/-- What stands between the brackets of each tag. -/
def tagBodies : Option Bytes → Bytes → List Bytes
  | _, [] => []
  | none, b :: s => tagBodies (if b = ch '<' then some [] else none) s
  | some body, b :: s =>
    if b = ch '>' then body.reverse :: tagBodies none s else tagBodies (some (b :: body)) s

theorem scanTags_eq (state : Option Bytes) (s : Bytes) :
    scanTags state s = (tagBodies state s).map tagOf := by
  induction s generalizing state with
  | nil => cases state <;> rfl
  | cons b s ih =>
    cases state with
    | none => exact ih _
    | some body =>
      rw [scanTags, tagBodies]
      split_ifs
      · rw [ih, List.map_cons]
      · exact ih _

theorem tagBodies_append (state : Option Bytes) (s t : Bytes) :
    tagBodies state (s ++ t) = tagBodies state s ++ tagBodies (scanEnd state s) t := by
  induction s generalizing state with
  | nil => cases state <;> rfl
  | cons b s ih =>
    cases state with
    | none => exact ih _
    | some body =>
      rw [List.cons_append, tagBodies, tagBodies, scanEnd]
      split_ifs
      · rw [ih]
        rfl
      · exact ih _

/-- The start tags of numbered lists in a text, without their brackets. -/
def olTags (s : Bytes) : List Bytes :=
  (tagBodies none s).filter fun body => tagOf body = ⟨false, str "OL"⟩

/-- The text ends outside a tag and has these start tags of numbered lists. -/
def Numbers (s : Bytes) (starts : List Bytes) : Prop := scanEnd none s = none ∧ olTags s = starts

instance (s : Bytes) (starts : List Bytes) : Decidable (Numbers s starts) :=
  inferInstanceAs (Decidable (_ ∧ _))

theorem Numbers.append {s t : Bytes} {ss ts : List Bytes} (hs : Numbers s ss) (ht : Numbers t ts) :
    Numbers (s ++ t) (ss ++ ts) := by
  refine ⟨by rw [scanEnd_append, hs.1, ht.1], ?_⟩
  rw [← hs.2, ← ht.2, olTags, olTags, olTags, tagBodies_append, hs.1, List.filter_append]

theorem Numbers.nil : Numbers [] [] := ⟨rfl, rfl⟩

/-! ### The tags of a new item -/

/-- The tags that opening a list of the kind writes. -/
def ListType.starts : ListType → Bytes → List Bytes
  | .ul, _ => []
  | .ol, theOlType =>
    [if theOlType = [] then str "OL" else str "OL type=\"" ++ theOlType ++ str "\""]

theorem numbers_listStart (theType : ListType) (marker : Option Bytes) :
    Numbers (listStart theType.name (olType marker)) (theType.starts (olType marker)) := by
  rcases olType_cases marker with h | h
  · rw [h]
    cases theType <;> decide
  · rw [h]
    cases theType <;> decide

variable {st : FormatterState} {types : List ListType}

/-- The stacks of the formatter hold these lists. -/
structure FormatterState.OpenLists (st : FormatterState) (types : List ListType) : Prop where
  listTypes : st.listTypes = types.map ListType.name
  listElements : st.listElements = types.map fun _ => str "LI"

theorem openLevels_numbers (theType : ListType) (marker : Option Bytes) (n : Nat)
    (firstTime : Bool) (h : st.OpenLists types) (result : StringBuffer) :
    ∃ text, (openLevels theType.name (str "LI") (olType marker) n firstTime st result).2.contents =
        result.contents ++ text ∧
      (openLevels theType.name (str "LI") (olType marker) n firstTime st result).1.OpenLists
        (List.replicate n theType ++ types) ∧
      Numbers text (List.replicate n (theType.starts (olType marker))).flatten := by
  induction n generalizing firstTime st result types with
  | zero => exact ⟨[], by simp [openLevels], h, .nil⟩
  | succ n ih =>
    have hpush : { st with
        listTypes := theType.name :: st.listTypes
        listElements := str "LI" :: st.listElements }.OpenLists (theType :: types) :=
      ⟨by simp [h.listTypes], by simp [h.listElements]⟩
    rw [openLevels_succ]
    obtain ⟨text, hcontents, hlists, hnumbers⟩ := ih false hpush
      ((if firstTime then result
        else result.addString (some (str "<" ++ str "LI" ++ str ">\n"))).addString
          (some (listStart theType.name (olType marker))))
    have hreplicate : List.replicate (n + 1) theType ++ types =
        List.replicate n theType ++ theType :: types := by
      rw [List.replicate_succ', List.append_assoc]
      rfl
    have hstart := (numbers_listStart theType marker).append hnumbers
    rw [hreplicate, List.replicate_succ, List.flatten_cons]
    cases firstTime with
    | true =>
      refine ⟨_, ?_, hlists, hstart⟩
      rw [hcontents, StringBuffer.contents_addString]
      simp
    | false =>
      have hitem : Numbers (str "<" ++ str "LI" ++ str ">\n") [] := by decide
      refine ⟨_, ?_, hlists, hitem.append hstart⟩
      rw [hcontents, StringBuffer.contents_addString, if_neg Bool.false_ne_true,
        StringBuffer.contents_addString]
      simp

theorem closeLevels_numbers (n : Nat) (h : st.OpenLists types) (hn : n ≤ types.length)
    (result : StringBuffer) :
    ∃ text, (closeLevels n st result).2.contents = result.contents ++ text ∧
      (closeLevels n st result).1.OpenLists (types.drop n) ∧ Numbers text [] := by
  induction n generalizing st result types with
  | zero => exact ⟨[], by simp [closeLevels], h, .nil⟩
  | succ n ih =>
    obtain ⟨theType, rest, rfl⟩ := List.exists_cons_of_length_pos (Nat.zero_lt_of_lt hn)
    have hpop : { st with
        listTypes := st.listTypes.tail
        listElements := st.listElements.tail }.OpenLists rest :=
      ⟨by simp [h.listTypes], by simp [h.listElements]⟩
    obtain ⟨text, hcontents, hlists, hnumbers⟩ := ih hpop (Nat.le_of_succ_le_succ hn)
      ((result.addString (some (str "</" ++ st.listElements.headD [] ++ str ">\n"))).addString
        (some (str "</" ++ st.listTypes.headD [] ++ str ">\n")))
    have hclose : Numbers (str "</" ++ str "LI" ++ str ">\n" ++
        (str "</" ++ theType.name ++ str ">\n")) [] := by
      cases theType <;> decide
    refine ⟨_, ?_, hlists, hclose.append hnumbers⟩
    rw [closeLevels, hcontents, StringBuffer.contents_addString, StringBuffer.contents_addString,
      h.listTypes, h.listElements]
    simp

theorem closeElement_numbers (h : st.OpenLists types) (result : StringBuffer) :
    ∃ text, (closeElement st result).contents = result.contents ++ text ∧ Numbers text [] := by
  rw [closeElement, h.listElements]
  cases types with
  | nil => exact ⟨[], by simp, .nil⟩
  | cons theType types =>
    have hclose : Numbers (str "</" ++ str "LI" ++ str ">\n") [] := by decide
    exact ⟨_, StringBuffer.contents_addString .., hclose⟩

/-- The lists after an item of the kind on the level. -/
def listsAfter (theType : ListType) (level : Nat) (types : List ListType) : List ListType :=
  if types.length < level then List.replicate (level - types.length) theType ++ types
  else theType :: types.drop (types.length - level + 1)

/-- The start tags that the item writes: one for each new level, or one for a list that takes the
place of a list of the other kind. -/
def itemTags (theType : ListType) (level : Nat) (marker : Option Bytes) (types : List ListType) :
    List Bytes :=
  if types.length < level then
    (List.replicate (level - types.length) (theType.starts (olType marker))).flatten
  else if types[types.length - level]? = some theType then [] else theType.starts []

theorem emitList_numbers (theType : ListType) {level : Nat} (hlevel : 0 < level)
    (marker : Option Bytes) (h : st.OpenLists types) :
    (emitList theType.name (str "LI") level marker st).2.OpenLists
        (listsAfter theType level types) ∧
      Numbers ((emitList theType.name (str "LI") level marker st).1.getD [])
        (itemTags theType level marker types) := by
  have hlist : { st with isList := true }.OpenLists types := ⟨h.listTypes, h.listElements⟩
  have hsize : st.listTypes.length = types.length := by rw [h.listTypes, List.length_map]
  rw [emitList, listsAfter, itemTags]
  dsimp only
  rw [hsize]
  by_cases hopen : types.length < level
  · obtain ⟨text, hcontents, hlists, hnumbers⟩ := openLevels_numbers theType marker
      (level - types.length) true hlist {}
    rw [if_pos hopen, if_pos hopen, if_pos hopen]
    obtain ⟨n, hn⟩ := Nat.exists_eq_succ_of_ne_zero (Nat.sub_ne_zero_of_lt hopen)
    generalize openLevels theType.name (str "LI") (olType marker) (level - types.length) true
      { st with isList := true } {} = levels at hcontents hlists ⊢
    obtain ⟨st', result⟩ := levels
    have hhead : st'.listTypes = theType.name ::
        (List.replicate n theType ++ types).map ListType.name := by
      rw [hlists.listTypes, hn]
      rfl
    dsimp only
    rw [hhead]
    dsimp only
    rw [if_neg (by simp)]
    refine ⟨hlists, ?_⟩
    rw [(StringBuffer.toString_contents result).1, hcontents]
    exact hnumbers
  · rw [if_neg hopen, if_neg hopen, if_neg hopen]
    generalize hlevels : (if types.length > level then
        ((closeLevels (types.length - level) { st with isList := true } {}).1,
          closeElement (closeLevels (types.length - level) { st with isList := true } {}).1
            (closeLevels (types.length - level) { st with isList := true } {}).2)
      else ({ st with isList := true }, closeElement { st with isList := true } {})) = levels
    have hclosed : levels.1.OpenLists (types.drop (types.length - level)) ∧
        Numbers levels.2.contents [] := by
      rw [← hlevels]
      split_ifs with hclose
      · obtain ⟨text, hcontents, hlists, hnumbers⟩ :=
          closeLevels_numbers (types.length - level) hlist (Nat.sub_le _ _) {}
        obtain ⟨text', hcontents', hnumbers'⟩ := closeElement_numbers hlists
          (closeLevels (types.length - level) { st with isList := true } {}).2
        refine ⟨hlists, ?_⟩
        rw [hcontents', hcontents]
        exact hnumbers.append hnumbers'
      · obtain ⟨text, hcontents, hnumbers⟩ := closeElement_numbers hlist {}
        have hsame : types.length - level = 0 := by omega
        rw [hsame]
        refine ⟨hlist, ?_⟩
        rw [hcontents]
        exact hnumbers
    obtain ⟨st', result⟩ := levels
    obtain ⟨hlists, hnumbers⟩ := hclosed
    dsimp only at hlists hnumbers ⊢
    have hindex : types.length - level < types.length := by omega
    rw [List.drop_eq_getElem_cons hindex] at hlists
    rw [List.getElem?_eq_getElem hindex]
    generalize types[types.length - level] = lastType at hlists ⊢
    rw [hlists.listTypes, List.map_cons]
    dsimp only
    by_cases hsame : lastType = theType
    · obtain rfl := hsame
      rw [if_neg (by simp), if_pos rfl]
      refine ⟨hlists, ?_⟩
      rw [(StringBuffer.toString_contents result).1]
      exact hnumbers
    · have hname : lastType.name ≠ theType.name := by
        revert hsame
        cases lastType <;> cases theType <;> decide
      have hchange : Numbers (str "</" ++ lastType.name ++ str ">\n<" ++ theType.name ++ str ">\n")
          (theType.starts []) := by
        cases lastType <;> cases theType <;> decide
      have hsome : ¬ some lastType = some theType := fun heq => hsame (Option.some.inj heq)
      rw [if_pos hname, if_neg hsome]
      refine ⟨⟨rfl, ?_⟩, ?_⟩
      · simp [hlists.listElements]
      · rw [(StringBuffer.toString_contents _).1, StringBuffer.contents_addString]
        exact hnumbers.append hchange

/-! ### Item lines -/

/-- The marker of an item: a star, a number with or without a dot, or a letter with a dot. -/
inductive ItemMarker
  | bullet
  | number (digits : Bytes) (dot : Bool)
  | letter (b : Byte)

namespace ItemMarker

def written : ItemMarker → Bytes
  | .bullet => str "* "
  | .number digits dot => digits ++ if dot then str "." else []
  | .letter b => [b, ch '.']

def theType : ItemMarker → ListType
  | .bullet => .ul
  | _ => .ol

/-- The marker of an ordered item. -/
def ordered? : ItemMarker → Option Bytes
  | .bullet => none
  | marker => some marker.written

/-- The marker may stand before the text: a number ends where its digits and its dot do. -/
def Before : ItemMarker → Bytes → Prop
  | .bullet, _ => True
  | .number digits dot, text => digits ≠ [] ∧ (∀ b ∈ digits, isDigit b = true) ∧
      (dot = false → ∀ b ∈ text.head?, isDigit b = false ∧ b ≠ ch '.')
  | .letter b, _ => b ∈ str "AaIi"

end ItemMarker

/-- The line of an item: blanks, a marker and a text. -/
structure ItemLine where
  indent : Nat
  positive : 0 < indent
  marker : ItemMarker
  text : Bytes
  before : marker.Before text

def blanks (n : Nat) : Bytes := List.replicate n (ch ' ')

namespace ItemLine

def line (item : ItemLine) : Bytes := blanks item.indent ++ (item.marker.written ++ item.text)

def level (item : ItemLine) : Nat := calculateListLevel (blanks item.indent)

theorem level_pos (item : ItemLine) : 0 < item.level := by
  have hpositive := item.positive
  rw [level, calculateListLevel, blanks, List.length_replicate]
  split_ifs
  · omega
  · exact hpositive

end ItemLine

/-! ### The patterns of items -/

/-- The capture of the blanks. -/
def indented (is : List Item) : List Item :=
  .startCapture :: .single (.set false [.lit (ch ' ')]) .plus :: .endCapture :: is

/-- The items of a star and a blank. -/
def bulletItems : List Item := [.single (.cls (ch '*')) .one, .single (.lit (ch ' ')) .one]

/-- The items of a number and its dot, and of the blank after it. -/
def numberItems : List Item :=
  [.startCapture, .single (.cls (ch 'd')) .plus, .single (.cls (ch '.')) .opt, .endCapture,
    .single (.lit (ch ' ')) .opt]

/-- The items of a letter and its dot, and of the blank after it. -/
def letterItems : List Item :=
  [.startCapture,
    .single (.set false [.lit (ch '1'), .lit (ch 'A'), .lit (ch 'a'), .lit (ch 'I'),
      .lit (ch 'i')]) .one,
    .single (.cls (ch '.')) .one, .endCapture, .single (.lit (ch ' ')) .opt]

theorem bullet_pattern : pat "^([ ]+)%* " = ⟨true, indented bulletItems⟩ := by decide

theorem number_pattern : pat "^([ ]+)(%d+%.?) ?" = ⟨true, indented numberItems⟩ := by decide

theorem letter_pattern : pat "^([ ]+)([1AaIi]%.) ?" = ⟨true, indented letterItems⟩ := by decide

section
variable {is : List Item} {n : Nat} {v : Bytes}

theorem blankSet_match (b : Byte) :
    singleMatch b (.set false [.lit (ch ' ')]) = true ↔ b = ch ' ' := by
  simp only [singleMatch, matchBracketClass, SetItem.test, List.any_cons, List.any_nil,
    Bool.or_false, beq_iff_eq, Bool.xor_false]
  exact eq_comm

/-- After the blanks the rest of the pattern is matched. -/
theorem doMatch_indented {r : Bytes × List Capture} (hn : 0 < n)
    (hv : ∀ b ∈ v.head?, b ≠ ch ' ') (hr : doMatch is [.done (blanks n)] v = some r) :
    doMatch (indented is) [] (blanks n ++ v) = some r := by
  refine doMatch_capture_plus ?_ ?_ ?_ hr
  · rw [blanks, ne_eq, List.replicate_eq_nil_iff]
    omega
  · intro b hb
    exact (blankSet_match b).mpr (List.eq_of_mem_replicate hb)
  · rintro b t rfl
    exact Bool.eq_false_iff.mpr fun hm => hv b rfl ((blankSet_match b).mp hm)

/-- Nothing matches when the rest cannot begin with a blank or with what follows the blanks. -/
theorem matchHere_indented_none {c : Single} (hc : headSingle is = some c)
    (hblank : singleMatch (ch ' ') c = false)
    (hv : ∀ b ∈ v.head?, b ≠ ch ' ' ∧ singleMatch b c = false) :
    matchHere (indented is) (blanks n ++ v) = none := by
  refine matchHere_eq_none ?_
  cases hd : doMatch (indented is) [] (blanks n ++ v) with
  | none => rfl
  | some r =>
    rw [indented, doMatch] at hd
    obtain ⟨u, w, hsplit, _, hu, hw⟩ := doMatch_plus_sound hd
    rw [doMatch] at hw
    rw [doMatch_head hc] at hw
    · cases hw
    · rintro b t rfl
      rcases List.append_eq_append_iff.mp hsplit with ⟨y, rfl, hy⟩ | ⟨y, hy, hv'⟩
      · cases y with
        | nil => exact (hv b (by simp [hy])).2
        | cons d y =>
          have hd := (blankSet_match d).mp (hu d (by simp))
          exact absurd hd (hv d (by simp [hy])).1
      · cases y with
        | nil =>
          have hhead : v.head? = some b := congrArg List.head? hv'.symm
          exact (hv b hhead).2
        | cons d y =>
          obtain ⟨rfl, _⟩ := List.cons.inj hv'
          have hb : b = ch ' ' := List.eq_of_mem_replicate (hy ▸ List.mem_append_right u (by simp))
          rw [hb]
          exact hblank

end

/-- An anchored pattern is replaced once. -/
theorem gsubState_anchor {σ : Type} {is : List Item} {s : Bytes} {m : Match}
    (h : matchHere is s = some m) (f : List Bytes → σ → Bytes × σ) (st : σ) :
    gsubState ⟨true, is⟩ f s st = ((f m.captures st).1 ++ m.after, (f m.captures st).2) := by
  have hcopy : ∀ (t out : Bytes) (st : σ), (t.map Piece.copy).foldl (gsubStep f) (out, st) =
      (out ++ t, st) := by
    intro t
    induction t with
    | nil => simp
    | cons b t ih =>
      intro out st
      rw [List.map_cons, List.foldl_cons]
      exact (ih (out ++ [b]) st).trans (by simp)
  have hscan : scan ⟨true, is⟩ s = .hit m :: m.after.map .copy := by
    rw [scan, if_pos rfl, h]
  rw [gsubState_eq, hscan, List.foldl_cons]
  exact hcopy m.after _ _

/-- The line of an item that was found is no other item. -/
theorem listItem_found {p : Pattern} (hanchor : p.anchor = true)
    (hhead : headSingle p.items = some (.set false [.lit (ch ' ')])) (theType text : Bytes)
    (st : FormatterState) :
    listItem p theType (str "<LI> " ++ text) st = (str "<LI> " ++ text, st) := by
  refine gsubState_misses (Pattern.Misses.of_head hanchor hhead fun b t hb => ?_) _ _
  obtain ⟨rfl, _⟩ := List.cons.inj (hb.symm.trans rfl : b :: t = ch '<' :: (str "LI> " ++ text))
  decide

theorem listItem_hit {is : List Item} {s : Bytes} {m : Match} (hm : matchHere is s = some m)
    (theType : Bytes) (st : FormatterState) :
    listItem ⟨true, is⟩ theType s st =
      (str "<LI> " ++ m.after,
        (emitList theType (str "LI") (calculateListLevel (m.captures.getD 0 [])) m.captures[1]?
          st).2.addString (emitList theType (str "LI")
            (calculateListLevel (m.captures.getD 0 [])) m.captures[1]? st).1) := by
  rw [listItem, gsubState_anchor hm]

theorem listItem_none {is : List Item} {s : Bytes} (hm : matchHere is s = none) (theType : Bytes)
    (st : FormatterState) : listItem ⟨true, is⟩ theType s st = (s, st) := by
  refine gsubState_misses (fun v _ hv => ?_) _ _
  rw [hv rfl]
  exact hm

/-! ### An item -/

section
variable {n : Nat} {text : Bytes}

theorem matchHere_captures {is : List Item} {s r : Bytes} {c : Capture} {cs : List Capture}
    (h : doMatch is [] s = some (r, c :: cs)) :
    ∃ m, matchHere is s = some m ∧ m.captures = pushCaptures [] (c :: cs) := by
  refine ⟨⟨s.take (s.length - r.length), pushCaptures [] (c :: cs), r⟩, ?_, rfl⟩
  rw [matchHere, h]
  rfl

theorem matchHere_bullet (hn : 0 < n) (text : Bytes) :
    ∃ m, matchHere (indented bulletItems) (blanks n ++ (str "* " ++ text)) = some m ∧
      m.captures = [blanks n] := by
  have hstar : ∀ b ∈ (str "* " ++ text).head?, b ≠ ch ' ' := by
    intro b hb
    obtain rfl : ch '*' = b := Option.some.inj hb
    decide
  have hd : doMatch (indented bulletItems) []
      (blanks n ++ (str "* " ++ text)) = some (text, [.done (blanks n)]) :=
    doMatch_indented hn hstar rfl
  exact matchHere_captures hd

theorem doMatch_opt_skip {is : List Item} {c : Single} {caps : List Capture} {s : Bytes}
    (h : ∀ b ∈ s.head?, singleMatch b c = false) :
    doMatch (.single c .opt :: is) caps s = doMatch is caps s := by
  cases s with
  | nil => rfl
  | cons b t => simp [doMatch, expand, h b rfl]

theorem doMatch_opt_take {is : List Item} {c : Single} {caps : List Capture} {b : Byte} {t : Bytes}
    {r : Bytes × List Capture} (h : singleMatch b c = true) (hr : doMatch is caps t = some r) :
    doMatch (.single c .opt :: is) caps (b :: t) = some r := by
  rw [doMatch, expand, if_pos h, hr]

/-- A blank after the marker belongs to it. -/
theorem doMatch_blank_opt (caps : List Capture) (text : Bytes) :
    ∃ u v, text = u ++ v ∧ doMatch [.single (.lit (ch ' ')) .opt] caps text = some (v, caps) := by
  cases text with
  | nil => exact ⟨[], [], rfl, rfl⟩
  | cons b t =>
    by_cases hb : singleMatch b (.lit (ch ' ')) = true
    · exact ⟨[b], t, rfl, by simp [doMatch, expand, hb]⟩
    · exact ⟨[], b :: t, rfl, by simp [doMatch, expand, hb]⟩

theorem digit_facts (b : Byte) (h : isDigit b = true) :
    b ≠ ch ' ' ∧ b ≠ ch '*' ∧ b ≠ ch '.' := by
  revert h; revert b
  refine forall_byte ?_
  decide +kernel

theorem matchHere_number {digits : Bytes} {dot : Bool} (hn : 0 < n)
    (h : (ItemMarker.number digits dot).Before text) :
    ∃ m, matchHere (indented numberItems)
        (blanks n ++ ((ItemMarker.number digits dot).written ++ text)) = some m ∧
      m.captures = [blanks n, (ItemMarker.number digits dot).written] := by
  obtain ⟨hne, hdigits, hend⟩ := h
  obtain ⟨u, v, rfl, hblank⟩ := doMatch_blank_opt
    ([.done (blanks n)] ++ [.done (ItemMarker.number digits dot).written]) text
  have hclass : ∀ b, singleMatch b (.cls (ch 'd')) = isDigit b := fun b => rfl
  have hclose : doMatch [.endCapture, .single (.lit (ch ' ')) .opt]
      ([.done (blanks n)] ++
        [.unfinished ((ItemMarker.number digits dot).written ++ (u ++ v))]) (u ++ v) =
      some (v, [.done (blanks n)] ++ [.done (ItemMarker.number digits dot).written]) :=
    (doMatch_endCapture _ _).trans hblank
  have hmarker : doMatch numberItems [.done (blanks n)]
      ((ItemMarker.number digits dot).written ++ (u ++ v)) =
        some (v, [.done (blanks n)] ++ [.done (ItemMarker.number digits dot).written]) := by
    rw [numberItems, doMatch]
    cases dot with
    | true =>
      have hwritten : (ItemMarker.number digits true).written ++ (u ++ v) =
          digits ++ ch '.' :: (u ++ v) := by
        simp [ItemMarker.written, show str "." = [ch '.'] by decide]
      rw [hwritten] at hclose ⊢
      refine doMatch_plus hne (fun b hb => (hclass b).trans (hdigits b hb)) ?_
        (doMatch_opt_take (by decide) hclose)
      rintro b t hb
      obtain ⟨rfl, _⟩ := List.cons.inj hb
      decide
    | false =>
      have hwritten : (ItemMarker.number digits false).written ++ (u ++ v) =
          digits ++ (u ++ v) := by
        simp [ItemMarker.written]
      have hskip : ∀ b ∈ (u ++ v).head?, singleMatch b (.cls (ch '.')) = false := by
        intro b hb
        refine Bool.eq_false_iff.mpr fun hm => (hend rfl b hb).2 ?_
        exact (matchClass_literal (by decide) b).mp hm
      rw [hwritten] at hclose ⊢
      refine doMatch_plus hne (fun b hb => (hclass b).trans (hdigits b hb)) ?_
        ((doMatch_opt_skip hskip).trans hclose)
      intro b t hb
      exact (hclass b).trans (hend rfl b (by rw [hb]; rfl)).1
  have hfirst : ∀ b ∈ ((ItemMarker.number digits dot).written ++ (u ++ v)).head?, b ≠ ch ' ' := by
    obtain ⟨d, ds, rfl⟩ := List.exists_cons_of_ne_nil hne
    intro b hb
    obtain rfl : d = b := Option.some.inj hb
    exact (digit_facts d (hdigits d (by simp))).1
  have hd := doMatch_indented hn hfirst hmarker
  exact matchHere_captures hd

theorem matchHere_letter {b : Byte} (hn : 0 < n) (hb : b ∈ str "AaIi") (text : Bytes) :
    ∃ m, matchHere (indented letterItems)
        (blanks n ++ ((ItemMarker.letter b).written ++ text)) = some m ∧
      m.captures = [blanks n, (ItemMarker.letter b).written] := by
  have hletter : ∀ b ∈ str "AaIi", b ≠ ch ' ' ∧ singleMatch b (.set false [.lit (ch '1'),
      .lit (ch 'A'), .lit (ch 'a'), .lit (ch 'I'), .lit (ch 'i')]) = true := by decide
  obtain ⟨u, v, rfl, hblank⟩ := doMatch_blank_opt
    ([.done (blanks n)] ++ [.done (ItemMarker.letter b).written]) text
  have hmarker : doMatch letterItems [.done (blanks n)]
      ((ItemMarker.letter b).written ++ (u ++ v)) =
        some (v, [.done (blanks n)] ++ [.done (ItemMarker.letter b).written]) := by
    rw [letterItems, doMatch]
    refine (doMatch_one (hletter b hb).2).trans ((doMatch_one (b := ch '.') (by decide)).trans ?_)
    exact (doMatch_endCapture [b, ch '.'] (u ++ v)).trans hblank
  have hfirst : ∀ d ∈ ((ItemMarker.letter b).written ++ (u ++ v)).head?, d ≠ ch ' ' := by
    intro d hd
    obtain rfl : b = d := Option.some.inj hd
    exact (hletter b hb).1
  have hd := doMatch_indented hn hfirst hmarker
  exact matchHere_captures hd

/-- An item is announced with its level and, when it is ordered, its marker. -/
theorem lists_item {marker : ItemMarker} (hn : 0 < n) (h : marker.Before text)
    (st : FormatterState) :
    (lists (blanks n ++ (marker.written ++ text)) st).2 =
      (emitList marker.theType.name (str "LI") (calculateListLevel (blanks n)) marker.ordered?
        st).2.addString (emitList marker.theType.name (str "LI") (calculateListLevel (blanks n))
          marker.ordered? st).1 := by
  obtain ⟨types, elements, hframe⟩ := emitList_frame marker.theType.name (str "LI")
    (calculateListLevel (blanks n)) marker.ordered? st
  have hlist : (emitList marker.theType.name (str "LI") (calculateListLevel (blanks n))
      marker.ordered? st).2.isList = true := by rw [hframe]
  have hnumberFound := fun text => listItem_found (p := ⟨true, indented numberItems⟩) rfl (by decide)
    (str "OL") text
  have hletterFound := fun text => listItem_found (p := ⟨true, indented letterItems⟩) rfl (by decide)
    (str "OL") text
  rw [lists, bullet_pattern, number_pattern, letter_pattern]
  cases marker with
  | bullet =>
    obtain ⟨m, hm, hcaptures⟩ := matchHere_bullet hn text
    have hitem := listItem_hit hm (str "UL") st
    rw [hcaptures] at hitem
    simp only [ItemMarker.written, hitem, hnumberFound, hletterFound]
    exact congrArg Prod.snd (if_pos hlist)
  | number digits dot =>
    obtain ⟨m, hm, hcaptures⟩ := matchHere_number hn h
    have hbullet : matchHere (indented bulletItems)
        (blanks n ++ ((ItemMarker.number digits dot).written ++ text)) = none := by
      refine matchHere_indented_none (c := .cls (ch '*')) rfl (by decide) ?_
      obtain ⟨hne, hdigits, _⟩ := h
      obtain ⟨d, ds, rfl⟩ := List.exists_cons_of_ne_nil hne
      intro b hb
      obtain rfl : d = b := Option.some.inj hb
      have hd := digit_facts d (hdigits d (by simp))
      refine ⟨hd.1, Bool.eq_false_iff.mpr fun hstar => hd.2.1 ?_⟩
      exact (matchClass_literal (by decide) d).mp hstar
    have hitem := listItem_hit hm (str "OL") st
    rw [hcaptures] at hitem
    simp only [listItem_none hbullet, hitem, hletterFound]
    exact congrArg Prod.snd (if_pos hlist)
  | letter b =>
    obtain ⟨m, hm, hcaptures⟩ := matchHere_letter hn h text
    have hletter : ∀ b ∈ str "AaIi", b ≠ ch ' ' ∧ singleMatch b (.cls (ch '*')) = false ∧
        singleMatch b (.cls (ch 'd')) = false := by decide
    have hfirst : ∀ d ∈ ((ItemMarker.letter b).written ++ text).head?, d = b :=
      fun d hd => (Option.some.inj hd).symm
    have hbullet : matchHere (indented bulletItems)
        (blanks n ++ ((ItemMarker.letter b).written ++ text)) = none := by
      refine matchHere_indented_none (c := .cls (ch '*')) rfl (by decide) fun d hd => ?_
      rw [hfirst d hd]
      exact ⟨(hletter b h).1, (hletter b h).2.1⟩
    have hnumber : matchHere (indented numberItems)
        (blanks n ++ ((ItemMarker.letter b).written ++ text)) = none := by
      refine matchHere_indented_none (c := .cls (ch 'd')) rfl (by decide) fun d hd => ?_
      rw [hfirst d hd]
      exact ⟨(hletter b h).1, (hletter b h).2.2⟩
    have hitem := listItem_hit hm (str "OL") st
    rw [hcaptures] at hitem
    simp only [listItem_none hbullet, listItem_none hnumber, hitem]
    exact congrArg Prod.snd (if_pos hlist)

end

/-! ### The steps before the lists -/

/-- The bytes of blanks and markers. -/
def isItemByte (b : Byte) : Bool :=
  b == ch ' ' || b == ch '*' || b == ch '.' || isDigit b || (str "AaIi").contains b

/-- What no number can go on with. -/
def EndsNumber (b : Byte) : Prop := isDigit b = false ∧ b ≠ ch '.'

instance : DecidablePred EndsNumber := fun _ => inferInstanceAs (Decidable (_ ∧ _))

theorem itemByte_facts (b : Byte) (h : isItemByte b = true) :
    b ∉ str "<>-n~&|" ∧ ∀ scheme ∈ urlTypes, scheme.head? ≠ some b := by
  revert h; revert b
  refine forall_byte ?_
  decide +kernel

section
variable {u text : Bytes}

theorem gsubStr_run {p : Pattern} {x : Byte} (hp : p.anchor = false)
    (h : (headSingle p.items).any (Single.isByte x) = true) (hx : x ∉ u) (repl s : Bytes) :
    gsubStr p repl (u ++ s) = u ++ gsubStr p repl s := by
  obtain ⟨anchor, is⟩ := p
  obtain rfl := hp
  obtain ⟨c, hc, hbyte⟩ := (Option.any_eq_true _ _).mp h
  refine replaceAll_run hc (fun b hb => Bool.eq_false_iff.mpr fun hm => hx ?_) _ s
  exact Single.isByte_match hbyte hm ▸ hb

theorem embeddedHtml_run (hu : ∀ b ∈ u, isItemByte b = true) (s : Bytes) :
    embeddedHtml (u ++ s) = u ++ embeddedHtml s := by
  have hno : ∀ x ∈ str "<>-n~&|", x ∉ u := fun x hx hmem => (itemByte_facts x (hu x hmem)).1 hx
  have hlt := hno (ch '<') (by decide)
  have hgt := hno (ch '>') (by decide)
  have hdash := hno (ch '-') (by decide)
  have hn := hno (ch 'n') (by decide)
  have htilde := hno (ch '~') (by decide)
  simp only [embeddedHtml]
  rw [gsubStr_run rfl (by decide) hlt, gsubStr_run rfl (by decide) hdash,
    gsubStr_run rfl (by decide) hlt, gsubStr_run rfl (by decide) hgt,
    gsubStr_run rfl (by decide) hlt, gsubStr_run rfl (by decide) hlt,
    gsubStr_run rfl (by decide) hlt, gsubStr_run rfl (by decide) hgt,
    gsubStr_run rfl (by decide) htilde, gsubStr_run rfl (by decide) hn,
    gsubStr_run rfl (by decide) htilde, gsubStr_run rfl (by decide) hdash]

theorem endsNumber_of_startsIn {f : Bytes → Bytes} (hnil : f [] = [])
    (hf : ∀ s, StartsIn EndsNumber s → StartsIn EndsNumber (f s))
    (h : ∀ b ∈ text.head?, EndsNumber b) : ∀ b ∈ (f text).head?, EndsNumber b := by
  cases text with
  | nil =>
    rw [hnil]
    exact h
  | cons b t =>
    obtain ⟨d, w, hw, hd⟩ := hf (b :: t) ⟨b, t, rfl, h b rfl⟩
    rw [hw]
    intro e he
    obtain rfl := Option.some.inj he
    exact hd

theorem embeddedHtml_endsNumber (h : ∀ b ∈ text.head?, EndsNumber b) :
    ∀ b ∈ (embeddedHtml text).head?, EndsNumber b := by
  refine endsNumber_of_startsIn (by decide) (fun s hs => ?_) h
  simp only [embeddedHtml]
  iterate 12 refine gsubStr_startsIn rfl (by decide) ⟨by decide, by decide⟩ ?_ _
  exact hs

theorem entities_endsNumber (h : ∀ b ∈ text.head?, EndsNumber b) :
    ∀ b ∈ (entities text).head?, EndsNumber b := by
  refine endsNumber_of_startsIn (by decide) (fun s hs => ?_) h
  simp only [entities]
  iterate 4 refine gsubStr_startsIn rfl (by decide) ⟨by decide, by decide⟩ ?_ _
  exact hs

/-- No URL begins inside blanks and a marker. -/
theorem embeddedUrls_item (cls : FormatterClass) (hu : ∀ b ∈ u, isItemByte b = true)
    (text : Bytes) :
    ∃ w, embeddedUrls cls (u ++ text) = u ++ w ∧
      ((∀ b ∈ text.head?, EndsNumber b) → ∀ b ∈ w.head?, EndsNumber b) := by
  have hrest : (∀ b ∈ text.head?, EndsNumber b) →
      ∀ b ∈ (embeddedUrls cls text).head?, EndsNumber b :=
    endsNumber_of_startsIn (by cases cls <;> decide) fun s => embeddedUrls_startsIn cls
  rw [embeddedUrls_eq] at hrest ⊢
  induction hlen : u.length using Nat.strong_induction_on generalizing u with
  | _ n ih =>
    cases u with
    | nil => exact ⟨_, rfl, hrest⟩
    | cons x u =>
      have hu' : ∀ b ∈ u, isItemByte b = true := fun b hb => hu b (List.mem_cons_of_mem _ hb)
      cases hm : matchHere urlItems (x :: (u ++ text)) with
      | none =>
        obtain ⟨w, hw, hhead⟩ := ih u.length (by rw [← hlen]; simp) hu' rfl
        refine ⟨w, ?_, hhead⟩
        rw [List.cons_append, replaceAll_miss hm, hw]
        rfl
      | some m =>
        obtain ⟨url⟩ := matchHere_url hm
        rw [List.cons_append, replaceAll_hit hm (matchHere_nonempty (by decide) hm)]
        by_cases htype : url.urlType ∈ urlTypes
        · obtain ⟨hx, hsplit⟩ := List.cons.inj url.subject
          obtain ⟨d, t, ht⟩ := List.exists_cons_of_ne_nil url.typeBytes.1
          rw [ht] at hsplit
          -- a known scheme begins with no byte of a marker
          have hnil : u = [] := by
            cases u with
            | nil => rfl
            | cons y u =>
              obtain rfl : y = d := (List.cons.inj hsplit).1
              exact absurd (by rw [ht]; rfl) ((itemByte_facts y (hu' y (by simp))).2 _ htype)
          subst hnil
          refine ⟨processUrl cls url.urlType (url.start ++ [url.last]) ++ ([url.charAfter] ++
            replaceAll ⟨false, urlItems⟩ (urlText cls) m.after), ?_, fun h => ?_⟩
          · rw [url.text, ← hx]
            simp
          · intro b hb
            rcases processUrl_cases cls url.urlType (url.start ++ [url.last]) with hplain | hlink
            · rw [hplain, ht] at hb
              exact h b ((congrArg List.head? hsplit).trans hb)
            · rw [hlink] at hb
              obtain rfl : ch '<' = b := Option.some.inj hb
              decide
        · rw [url.text_unknown hm cls htype]
          have hsplit : m.whole ++ m.after = (x :: u) ++ text := matchHere_append hm
          rcases List.append_eq_append_iff.mp hsplit with ⟨y, hy, hafter⟩ | ⟨y, hwhole, rfl⟩
          · have hne := List.length_pos_of_ne_nil (matchHere_nonempty (by decide) hm)
            have hshorter : y.length < n := by
              have hlength := congrArg List.length hy
              rw [List.length_append] at hlength
              omega
            obtain ⟨w, hw, hhead⟩ := ih y.length hshorter
              (fun b hb => hu b (hy ▸ List.mem_append_right _ hb)) rfl
            refine ⟨w, ?_, hhead⟩
            rw [hafter, hw, hy, List.append_assoc]
          · refine ⟨y ++ replaceAll ⟨false, urlItems⟩ (urlText cls) m.after, ?_, fun h => ?_⟩
            · rw [hwhole, List.append_assoc]
            · cases y with
              | nil => exact hrest h
              | cons d y => exact h

end

theorem digit_item (b : Byte) (h : isDigit b = true) : isItemByte b = true ∧ isSpace b = false := by
  revert h; revert b
  refine forall_byte ?_
  decide +kernel

theorem letter_item : ∀ b ∈ str "AaIi", isItemByte b = true ∧ isSpace b = false := by decide

namespace ItemMarker
variable {marker : ItemMarker} {text : Bytes}

theorem Before.bytes (h : marker.Before text) : ∀ b ∈ marker.written, isItemByte b = true := by
  cases marker with
  | bullet => decide
  | number digits dot =>
    obtain ⟨_, hdigits, _⟩ := h
    have hdot : ∀ b ∈ (if dot then str "." else [] : Bytes), isItemByte b = true := by
      cases dot <;> decide
    intro b hb
    rcases List.mem_append.mp hb with hb | hb
    · exact (digit_item b (hdigits b hb)).1
    · exact hdot b hb
  | letter d =>
    have hdot : isItemByte (ch '.') = true := by decide
    intro b hb
    rcases List.mem_cons.mp hb with rfl | hb
    · exact (letter_item b h).1
    · rw [List.mem_singleton.mp hb]
      exact hdot

theorem Before.start (h : marker.Before text) :
    ∃ d w, marker.written = d :: w ∧ isItemByte d = true ∧ isSpace d = false := by
  cases marker with
  | bullet => exact ⟨ch '*', str " ", rfl, by decide⟩
  | number digits dot =>
    obtain ⟨hne, hdigits, _⟩ := h
    obtain ⟨d, ds, rfl⟩ := List.exists_cons_of_ne_nil hne
    exact ⟨d, _, rfl, digit_item d (hdigits d (by simp))⟩
  | letter b => exact ⟨b, _, rfl, letter_item b h⟩

theorem Before.ordered (h : marker.Before text) {m : Bytes} (hm : m ∈ marker.ordered?) :
    marker.theType = .ol ∧ m ≠ [] := by
  obtain ⟨d, w, hw, _⟩ := h.start
  cases marker with
  | bullet => cases hm
  | number digits dot =>
    obtain rfl := Option.some.inj hm
    exact ⟨rfl, by rw [hw]; exact List.cons_ne_nil _ _⟩
  | letter b =>
    obtain rfl := Option.some.inj hm
    exact ⟨rfl, List.cons_ne_nil _ _⟩

/-- Another text may follow when it does not go on with a number either. -/
theorem Before.other (h : marker.Before text) {text' : Bytes}
    (hhead : (∀ b ∈ text.head?, EndsNumber b) → ∀ b ∈ text'.head?, EndsNumber b) :
    marker.Before text' := by
  cases marker with
  | bullet => trivial
  | number digits dot => exact ⟨h.1, h.2.1, fun hdot => hhead (h.2.2 hdot)⟩
  | letter b => exact h

end ItemMarker

section
variable {n : Nat} {marker : ItemMarker} {text : Bytes} {st : FormatterState}

/-- The line begins with a blank and has another byte that is no bar first. -/
theorem item_start (hn : 0 < n) (h : marker.Before text) :
    (∃ t, blanks n ++ (marker.written ++ text) = ch ' ' :: t) ∧
      ∃ d w, blanks n ++ (marker.written ++ text) = blanks n ++ d :: w ∧ isSpace d = false ∧
        d ≠ bar := by
  obtain ⟨d, w, hw, hitem, hspace⟩ := h.start
  obtain ⟨k, rfl⟩ := Nat.exists_eq_succ_of_ne_zero hn.ne'
  refine ⟨⟨blanks k ++ (marker.written ++ text), rfl⟩, d, w ++ text, by rw [hw]; rfl, hspace, ?_⟩
  rintro rfl
  exact (itemByte_facts bar hitem).1 (by decide)

theorem beforeTables_item (cls : FormatterClass) (hn : 0 < n) (h : marker.Before text) :
    ∃ text', beforeTables cls (blanks n ++ (marker.written ++ text)) =
        blanks n ++ (marker.written ++ text') ∧ marker.Before text' := by
  have hbytes : ∀ b ∈ blanks n ++ marker.written, isItemByte b = true := by
    intro b hb
    rcases List.mem_append.mp hb with hb | hb
    · rw [List.eq_of_mem_replicate hb]
      decide
    · exact h.bytes b hb
  have hno : ∀ x ∈ str "<>-n~&|", x ∉ blanks n ++ marker.written :=
    fun x hx hmem => (itemByte_facts x (hbytes x hmem)).1 hx
  have hhead : ∀ {x : Byte}, x ≠ ch ' ' → ∀ {text : Bytes}, marker.Before text → ∀ b t,
      blanks n ++ (marker.written ++ text) = b :: t → b ≠ x := by
    intro x hx text h b t hb
    obtain ⟨⟨t', ht⟩, _⟩ := item_start hn h
    obtain ⟨rfl, _⟩ := List.cons.inj (hb.symm.trans ht)
    exact hx.symm
  obtain ⟨w, hurls, hw⟩ := embeddedUrls_item cls hbytes (embeddedHtml text)
  have hbefore : marker.Before (entities w) :=
    h.other fun hend => entities_endsNumber (hw (embeddedHtml_endsNumber hend))
  refine ⟨entities w, ?_, hbefore⟩
  have hquote : blockQuote (blanks n ++ (marker.written ++ text)) =
      blanks n ++ (marker.written ++ text) := by
    refine replaceAll_misses (Pattern.Misses.of_head rfl (c := .lit (ch '>')) (by decide) ?_) _
    exact fun b t hb => beq_false_of_ne (hhead (by decide) h b t hb).symm
  have hdash : ∀ b t, blanks n ++ (marker.written ++ entities w) = b :: t →
      singleMatch b (.cls (ch '-')) = false := by
    intro b t hb
    have hne : b ≠ ch '-' := hhead (by decide) hbefore b t hb
    exact Bool.eq_false_iff.mpr fun hm => hne ((matchClass_literal (by decide) b).mp hm)
  have hheading : headings (blanks n ++ (marker.written ++ entities w)) =
      blanks n ++ (marker.written ++ entities w) :=
    replaceAll_misses (Pattern.Misses.of_head rfl (c := .cls (ch '-')) (by decide) hdash) _
  have hrule : horizontalRule (blanks n ++ (marker.written ++ entities w)) =
      blanks n ++ (marker.written ++ entities w) :=
    replaceAll_misses (Pattern.Misses.of_head rfl (c := .cls (ch '-')) (by decide) hdash) _
  rw [beforeTables, hquote, ← List.append_assoc, embeddedHtml_run hbytes, hurls,
    entities_run (hno _ (by decide)) (hno _ (by decide)), List.append_assoc, hheading, hrule]

theorem notTableLine_item (hn : 0 < n) (h : marker.Before text) :
    ¬ IsTableLine (blanks n ++ (marker.written ++ text)) := by
  obtain ⟨_, d, w, hline, hspace, hbar⟩ := item_start hn h
  rintro ⟨before, mid, after, hbefore, _, hrow⟩
  have hblanks : ∀ b ∈ blanks n, isSpace b = true := by
    intro b hb
    rw [List.eq_of_mem_replicate hb]
    decide
  have hcut := congrArg (List.dropWhile isSpace) (hline.symm.trans hrow)
  have hnot : ¬ isSpace d = true := by simp [hspace]
  rw [List.dropWhile_append_of_pos hblanks, List.dropWhile_append_of_pos hbefore,
    List.dropWhile_cons_of_neg hnot, List.dropWhile_cons_of_neg (by decide)] at hcut
  exact hbar (List.cons.inj hcut).1

/-- The line of an item is no paragraph and does not end a list. -/
theorem paragraphs_item (hn : 0 < n) (h : marker.Before text) (st : FormatterState) :
    paragraphs (blanks n ++ (marker.written ++ text)) st =
      (blanks n ++ (marker.written ++ text), st) := by
  obtain ⟨⟨t, hblank⟩, d, w, hline, hspace, _⟩ := item_start hn h
  have hempty : (pat "^%s*$").Misses (blanks n ++ (marker.written ++ text)) := by
    intro v _ hv
    obtain rfl := hv rfl
    refine matchHere_eq_none ?_
    cases hd : doMatch (pat "^%s*$").items [] (blanks n ++ (marker.written ++ text)) with
    | none => rfl
    | some r =>
      have hall := doMatch_blanks_eos_sound hd d (by rw [hline]; simp)
      rw [hspace] at hall
      cases hall
  have hsolid : (pat "^%S+").Misses (blanks n ++ (marker.written ++ text)) := by
    refine Pattern.Misses.of_head rfl (c := .cls (ch 'S')) (by decide) fun b t' hb => ?_
    obtain ⟨rfl, _⟩ := List.cons.inj (hb.symm.trans hblank)
    decide
  have hcount : gsubCount (pat "^%s*$") (blanks n ++ (marker.written ++ text)) = 0 := by
    have hnil := gfind_misses hempty
    rw [gfind, List.map_eq_nil_iff] at hnil
    rw [gsubCount, hnil]
    rfl
  have hfound : found (pat "^%S+") (blanks n ++ (marker.written ++ text)) = false :=
    Bool.eq_false_iff.mpr fun hf => found_iff_not_misses.mp hf hsolid
  simp only [paragraphs, gsubStr, replaceAll_misses hempty, hcount, hfound, gt_iff_lt,
    Nat.lt_irrefl, Bool.false_eq_true, or_self, ↓reduceIte]

end

/-! ### Runs -/

/-- What the line adds to the result of the page. -/
def emitted (env : FormatterEnv) (st : FormatterState) (line : Bytes) : Bytes :=
  (formatWikiLine env line st).2.result.contents.drop st.result.contents.length

theorem formatWikiLine_item (env : FormatterEnv) (item : ItemLine) {st : FormatterState}
    {types : List ListType} (h : st.OpenLists types) :
    (formatWikiLine env item.line st).2.OpenLists
        (listsAfter item.marker.theType item.level types) ∧
      olTags (emitted env st item.line) =
        itemTags item.marker.theType item.level item.marker.ordered? types := by
  obtain ⟨text, hline, hbefore⟩ := beforeTables_item env.cls item.positive item.before
  have hrow := processTableLine_plain (notTableLine_item item.positive hbefore) st
  generalize htable : (if st.insideTable then
    { st with insideTable := false }.addString (some tableEnd) else st) = st' at hrow
  have hclosed : st'.OpenLists types ∧ ∃ closing, st'.result.contents =
      st.result.contents ++ closing ∧ Numbers closing [] := by
    rw [← htable]
    split_ifs
    · exact ⟨⟨h.listTypes, h.listElements⟩, tableEnd, StringBuffer.contents_addString .., by decide⟩
    · exact ⟨h, [], by simp, .nil⟩
  obtain ⟨h', closing, hclosing, hnumbers⟩ := hclosed
  obtain ⟨hlists, hitem⟩ := emitList_numbers item.marker.theType item.level_pos
    item.marker.ordered? h'
  obtain ⟨_, _, hframe⟩ := emitList_frame item.marker.theType.name (str "LI") item.level
    item.marker.ordered? st'
  have hstate : ∃ probed, (formatWikiLine env item.line st).2 =
      { (emitList item.marker.theType.name (str "LI") item.level item.marker.ordered? st').2.addString
          (emitList item.marker.theType.name (str "LI") item.level item.marker.ordered? st').1 with
        probed } := by
    rw [formatWikiLine_eq]
    dsimp only
    rw [autoLinks_state, hyperLinks_state, ItemLine.line, hline, hrow,
      paragraphs_item item.positive hbefore, lists_item item.positive hbefore]
    exact ⟨_, rfl⟩
  obtain ⟨probed, hstate⟩ := hstate
  have hresult : (formatWikiLine env item.line st).2.result.contents =
      st.result.contents ++ (closing ++ (emitList item.marker.theType.name (str "LI") item.level
        item.marker.ordered? st').1.getD []) := by
    rw [hstate]
    refine (StringBuffer.contents_addString _ _).trans ?_
    rw [hframe, hclosing, List.append_assoc]
  refine ⟨?_, ?_⟩
  · rw [hstate]
    exact ⟨hlists.listTypes, hlists.listElements⟩
  · rw [emitted, hresult, List.drop_left]
    exact (hnumbers.append hitem).2

/-- The formatter after some item lines, from empty stacks. -/
def itemRun (env : FormatterEnv) (st : FormatterState) (items : List ItemLine) : FormatterState :=
  items.foldl (fun st item => (formatWikiLine env item.line st).2)
    { st with listTypes := [], listElements := [] }

/-- The kinds of the open lists after some items, the innermost first. -/
def openAfter (items : List ItemLine) : List ListType :=
  items.foldl (fun types item => listsAfter item.marker.theType item.level types) []

theorem itemRun_open (env : FormatterEnv) (st : FormatterState) (items : List ItemLine) :
    (itemRun env st items).OpenLists (openAfter items) := by
  have hfold : ∀ (items : List ItemLine) (st : FormatterState) (types : List ListType),
      st.OpenLists types →
      (items.foldl (fun st item => (formatWikiLine env item.line st).2) st).OpenLists
        (items.foldl (fun types item => listsAfter item.marker.theType item.level types) types) := by
    intro items
    induction items with
    | nil => exact fun _ _ h => h
    | cons item items ih =>
      intro st types h
      have hitem := (formatWikiLine_item env item h).1
      rw [List.foldl_cons, List.foldl_cons]
      exact ih (formatWikiLine env item.line st).2 _ hitem
  have hempty : { st with listTypes := [], listElements := [] }.OpenLists [] := ⟨rfl, rfl⟩
  rw [itemRun, openAfter]
  exact hfold items _ [] hempty

/-- The start tag that a marker is to open a list with: 1 is the style of a plain list. -/
def styledStart (marker : Bytes) : Bytes :=
  if marker.head? = some (ch '1') then str "OL"
  else str "OL type=\"" ++ marker.take 1 ++ str "\""

/-- The lists that an ordered item opens have the style of its marker. -/
def ItemLine.Styled (env : FormatterEnv) (st : FormatterState) (item : ItemLine) : Prop :=
  ∀ marker ∈ item.marker.ordered?, ∀ start ∈ olTags (emitted env st item.line),
    start = styledStart marker

/-- An ordered item opens no level, and takes the place of a bulleted list with a 1 only. -/
def ItemLine.Fits (types : List ListType) (item : ItemLine) : Prop :=
  ∀ marker ∈ item.marker.ordered?, item.level ≤ types.length ∧
    (types[types.length - item.level]? = some .ol ∨ marker.head? = some (ch '1'))

theorem itemTags_styled_iff {level : Nat} {marker : Bytes} (hmarker : marker ≠ [])
    (types : List ListType) :
    (∀ start ∈ itemTags .ol level (some marker) types, start = styledStart marker) ↔
      level ≤ types.length ∧
        (types[types.length - level]? = some .ol ∨ marker.head? = some (ch '1')) := by
  obtain ⟨b, t, rfl⟩ := List.exists_cons_of_ne_nil hmarker
  rw [itemTags]
  by_cases hopen : types.length < level
  · obtain ⟨n, hn⟩ := Nat.exists_eq_succ_of_ne_zero (Nat.sub_ne_zero_of_lt hopen)
    rw [if_pos hopen, olType_cons, hn]
    refine iff_of_false (fun hall => ?_) fun hfits => absurd hfits.1 (by omega)
    have hstart := hall (str "OL type=\"$1\"") (by
      rw [List.replicate_succ, List.flatten_cons]
      exact List.mem_append_left _ (by decide))
    rw [styledStart] at hstart
    split_ifs at hstart
    · exact absurd hstart (by decide)
    · have hlength := congrArg List.length hstart
      simp [List.length_append] at hlength
      revert hlength
      decide
  · rw [if_neg hopen]
    have hlevel : level ≤ types.length := by omega
    by_cases hol : types[types.length - level]? = some .ol
    · simp [hol, hlevel]
    · rw [if_neg hol]
      have hstyle : str "OL" = styledStart (b :: t) ↔ b = ch '1' := by
        rw [styledStart, List.head?_cons]
        split_ifs with hone
        · exact iff_of_true rfl (Option.some.inj hone)
        · refine iff_of_false (fun hstart => ?_) fun heq => hone (congrArg some heq)
          have hlength := congrArg List.length hstart
          simp only [List.length_append, List.take_succ_cons, List.take_zero,
            List.length_singleton] at hlength
          revert hlength
          decide
      simp [hol, hlevel, ListType.starts, hstyle]

/-- In a run of items the lists have the styles of their markers exactly as long as no ordered item
opens a level, or another style in the place of a bulleted list. -/
theorem numberedLists_styled_iff (env : FormatterEnv) (st : FormatterState)
    (items : List ItemLine) :
    (∀ before item after, items = before ++ item :: after →
        item.Styled env (itemRun env st before)) ↔
      ∀ before item after, items = before ++ item :: after → item.Fits (openAfter before) := by
  have hone : ∀ (before : List ItemLine) (item : ItemLine),
      item.Styled env (itemRun env st before) ↔ item.Fits (openAfter before) := by
    intro before item
    have hstarts := (formatWikiLine_item env item (itemRun_open env st before)).2
    rw [ItemLine.Styled, ItemLine.Fits, hstarts]
    refine forall₂_congr fun marker hmarker => ?_
    obtain ⟨hol, hne⟩ := item.before.ordered hmarker
    rw [hol, hmarker]
    exact itemTags_styled_iff hne _
  simp only [hone]

/-- `   1. one` -/
def oneItem : ItemLine where
  indent := 3
  positive := by decide
  marker := .number (str "1") true
  text := str " one"
  before := by
    refine ⟨by decide, by decide, fun hdot => ?_⟩
    cases hdot

/-- The first item of a page has the style of no marker. -/
theorem numberedLists_unstyled :
    oneItem.line = str "   1. one" ∧
      olTags (emitted (emptyEnv .wiki) {} (str "   1. one")) = [str "OL type=\"$1\""] ∧
      ¬ ∀ before item after, [oneItem] = before ++ item :: after →
        item.Styled (emptyEnv .wiki) (itemRun (emptyEnv .wiki) {} before) := by
  have hstart : olTags (emitted (emptyEnv .wiki) {} (str "   1. one")) =
      [str "OL type=\"$1\""] := by decide +kernel
  refine ⟨by decide, hstart, fun hall => ?_⟩
  have hstyled := hall [] oneItem [] rfl (str "1.") rfl (str "OL type=\"$1\"") ?_
  · exact absurd hstyled (by decide)
  · have hmem : str "OL type=\"$1\"" ∈ olTags (emitted (emptyEnv .wiki) {} (str "   1. one")) := by
      rw [hstart]
      exact List.mem_singleton.mpr rfl
    exact hmem

end MoonWiki
