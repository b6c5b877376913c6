import MoonWiki.Lua.Passes
import MoonWiki.Markup
import MoonWiki.WikiFormatter

/-! The lists of a page as a stack of open elements. -/
namespace MoonWiki
open Lua Markup

/-- The kinds of lists. -/
inductive ListType
  | ul
  | ol
  deriving DecidableEq, Repr

def ListType.name : ListType → Bytes
  | .ul => str "UL"
  | .ol => str "OL"

/-- What a line does to the lists: an item, or the end of all lists. -/
inductive ListEvent
  | item (theType : ListType) (level : Nat) (positive : 0 < level) (marker : Option Bytes)
  | close

/-- The formatter and what it has emitted. -/
structure ListRun where
  st : FormatterState := {}
  emitted : Bytes := []

/-- An item is emitted and its element opened, as `formatWikiLine` does it. -/
def ListRun.step (run : ListRun) : ListEvent → ListRun
  | .item theType level _ marker =>
    let (text, st) := emitList theType.name (str "LI") level marker run.st
    ⟨st, run.emitted ++ text.getD [] ++ str "<LI> "⟩
  | .close =>
    let (text, st) := emitList [] [] 0 none run.st
    ⟨st, run.emitted ++ text.getD []⟩

/-- The elements of the open lists, the innermost first. -/
def openElements (listTypes : List Bytes) : List Bytes :=
  listTypes.flatMap fun theType => [str "LI", theType]

/-- The elements of lists. -/
def listNames : List Bytes := [str "UL", str "OL", str "LI"]

def listTypeNames : List Bytes := [str "UL", str "OL"]

/-- The two stacks of a formatter: lists of a kind, each one with an item. -/
structure FormatterState.Stacks (st : FormatterState) : Prop where
  types : ∀ theType ∈ st.listTypes, theType ∈ listTypeNames
  elements : st.listElements = st.listTypes.map fun _ => str "LI"

/-- What was emitted has left the elements of the stacks open. -/
structure ListRun.Open (run : ListRun) : Prop where
  held : run.st.Stacks
  leads : Leads listNames run.emitted [] (openElements run.st.listTypes)

/-! ### What is written -/

theorem leads_open {name : Bytes} (h : name ∈ listNames) (a : List Bytes) :
    Leads listNames (str "<" ++ name ++ str ">\n") a (name :: a) := by
  have hone : ∀ name ∈ listNames, scanEnd none (str "<" ++ name ++ str ">\n") = none ∧
      tagsNamed listNames (str "<" ++ name ++ str ">\n") = [⟨false, name⟩] := by decide
  exact .opens (hone name h).1 (hone name h).2

theorem leads_close {name : Bytes} (h : name ∈ listNames) (a : List Bytes) :
    Leads listNames (str "</" ++ name ++ str ">\n") (name :: a) a := by
  have hone : ∀ name ∈ listNames, scanEnd none (str "</" ++ name ++ str ">\n") = none ∧
      tagsNamed listNames (str "</" ++ name ++ str ">\n") = [⟨true, name⟩] := by decide
  exact .closes (hone name h).1 (hone name h).2

/-- Any marker but the empty one becomes the same two bytes. -/
theorem olType_cons (b : Byte) (t : Bytes) : olType (some (b :: t)) = str "$1" := by
  have hpattern : pat "^(.).*" =
      ⟨true, [.startCapture, .single .any .one, .endCapture, .single .any .star]⟩ := by decide
  have hrepl : ch '%' ∉ str "$1" := by decide
  have hd : doMatch (pat "^(.).*").items [] (b :: t ++ []) = some ([], [.done [b]]) := by
    rw [hpattern, List.append_nil, doMatch, doMatch_one rfl]
    refine (doMatch_endCapture [b] t).trans ?_
    have hstar : doMatch [.single .any .star] ([] ++ [.done [b]]) (t ++ []) =
        some ([], [.done [b]]) := doMatch_star (fun _ _ => rfl) (by simp) rfl
    rwa [List.append_nil] at hstar
  have hm := matchHere_of_doMatch hd
  have hrow : gsubStr (pat "^(.).*") (str "$1") (b :: t) = str "$1" := by
    rw [gsubStr, hpattern, replaceAll_anchor]
    rw [hpattern, List.append_nil] at hm
    rw [hm]
    simp [addS_plain _ hrepl]
  rw [olType, hrow, if_neg (by decide)]

theorem olType_cases (marker : Option Bytes) : olType marker = [] ∨ olType marker = str "$1" := by
  cases marker with
  | none => exact .inl rfl
  | some t =>
    cases t with
    | nil => exact .inl (by decide)
    | cons b t => exact .inr (olType_cons b t)

/-- A list is opened, with a marker or without. -/
def listStart (theType theOlType : Bytes) : Bytes :=
  if theOlType ≠ [] then str "<" ++ theType ++ str " type=\"" ++ theOlType ++ str "\">\n"
  else str "<" ++ theType ++ str ">\n"

theorem leads_listStart {theType theOlType : Bytes} (h : theType ∈ listTypeNames)
    (hol : theOlType = [] ∨ theOlType = str "$1") (a : List Bytes) :
    Leads listNames (listStart theType theOlType) a (theType :: a) := by
  rw [listStart]
  rcases hol with rfl | rfl
  · rw [if_neg (by simp)]
    exact leads_open (List.mem_append_left [str "LI"] h) a
  · rw [if_pos (by decide)]
    have hone : ∀ name ∈ listTypeNames,
        scanEnd none (str "<" ++ name ++ str " type=\"" ++ str "$1" ++ str "\">\n") = none ∧
          tagsNamed listNames (str "<" ++ name ++ str " type=\"" ++ str "$1" ++ str "\">\n") =
            [⟨false, name⟩] := by decide
    exact .opens (hone theType h).1 (hone theType h).2

/-! ### Levels -/

variable {st : FormatterState}

theorem openElements_cons (theType : Bytes) (listTypes : List Bytes) :
    openElements (theType :: listTypes) = str "LI" :: theType :: openElements listTypes := rfl

theorem FormatterState.Stacks.push {theType : Bytes} (h : st.Stacks)
    (htype : theType ∈ listTypeNames) : { st with
      listTypes := theType :: st.listTypes
      listElements := str "LI" :: st.listElements }.Stacks := by
  refine ⟨fun t ht => ?_, by simp [h.elements]⟩
  rcases List.mem_cons.mp ht with rfl | ht
  · exact htype
  · exact h.types t ht

/-- One round of the first loop. -/
theorem openLevels_succ (theType theElement theOlType : Bytes) (n : Nat) (firstTime : Bool)
    (st : FormatterState) (result : StringBuffer) :
    openLevels theType theElement theOlType (n + 1) firstTime st result =
      openLevels theType theElement theOlType n false
        { st with
          listTypes := theType :: st.listTypes
          listElements := theElement :: st.listElements }
        ((if firstTime then result
          else result.addString (some (str "<" ++ theElement ++ str ">\n"))).addString
            (some (listStart theType theOlType))) := by
  rw [openLevels, listStart]
  split_ifs <;> rfl

/-- Further levels are opened inside a list that has no item yet. -/
theorem openLevels_leads {theType theOlType : Bytes} (htype : theType ∈ listTypeNames)
    (hol : theOlType = [] ∨ theOlType = str "$1") (n : Nat) (h : st.Stacks)
    (hne : st.listTypes ≠ []) (result : StringBuffer) :
    ∃ text, (openLevels theType (str "LI") theOlType n false st result).2.contents =
        result.contents ++ text ∧
      (openLevels theType (str "LI") theOlType n false st result).1.Stacks ∧
      (openLevels theType (str "LI") theOlType n false st result).1.listTypes =
        List.replicate n theType ++ st.listTypes ∧
      Leads listNames text (openElements st.listTypes).tail
        (openElements (List.replicate n theType ++ st.listTypes)).tail := by
  induction n generalizing st result with
  | zero => exact ⟨[], by simp [openLevels], h, rfl, .refl⟩
  | succ n ih =>
    obtain ⟨t, ts, hts⟩ := List.exists_cons_of_ne_nil hne
    obtain ⟨text, hcontents, hstacks, htypes, hleads⟩ := ih (h.push htype) (by simp)
      ((result.addString (some (str "<" ++ str "LI" ++ str ">\n"))).addString
        (some (listStart theType theOlType)))
    have hopen := openLevels_succ theType (str "LI") theOlType n false st result
    simp only [Bool.false_eq_true, ↓reduceIte] at hopen
    rw [hopen]
    have hrep : List.replicate n theType ++ theType :: st.listTypes =
        List.replicate (n + 1) theType ++ st.listTypes := by
      rw [List.replicate_succ', List.append_assoc]
      rfl
    refine ⟨str "<" ++ str "LI" ++ str ">\n" ++ listStart theType theOlType ++ text, ?_, hstacks,
      htypes.trans hrep, ?_⟩
    · rw [hcontents, StringBuffer.contents_addString, StringBuffer.contents_addString]
      simp
    · have hli : Leads listNames (str "<" ++ str "LI" ++ str ">\n") (t :: openElements ts)
          (openElements (t :: ts)) := leads_open (by decide) _
      have hlist := leads_listStart htype hol (openElements (t :: ts))
      rw [hts] at hrep hleads ⊢
      rw [← hrep]
      exact (hli.append hlist).append hleads

/-- Levels are opened inside an item, or where there is no list. -/
theorem openLevels_first_leads {theType theOlType : Bytes} (htype : theType ∈ listTypeNames)
    (hol : theOlType = [] ∨ theOlType = str "$1") {n : Nat} (hn : 0 < n) (h : st.Stacks)
    (result : StringBuffer) :
    ∃ text, (openLevels theType (str "LI") theOlType n true st result).2.contents =
        result.contents ++ text ∧
      (openLevels theType (str "LI") theOlType n true st result).1.Stacks ∧
      (openLevels theType (str "LI") theOlType n true st result).1.listTypes =
        List.replicate n theType ++ st.listTypes ∧
      Leads listNames text (openElements st.listTypes)
        (openElements (List.replicate n theType ++ st.listTypes)).tail := by
  obtain ⟨n, rfl⟩ := Nat.exists_eq_succ_of_ne_zero hn.ne'
  obtain ⟨text, hcontents, hstacks, htypes, hleads⟩ := openLevels_leads htype hol n
    (h.push htype) (by simp) (result.addString (some (listStart theType theOlType)))
  have hopen := openLevels_succ theType (str "LI") theOlType n true st result
  simp only [↓reduceIte] at hopen
  rw [hopen]
  have hrep : List.replicate n theType ++ theType :: st.listTypes =
      List.replicate (n + 1) theType ++ st.listTypes := by
    rw [List.replicate_succ', List.append_assoc]
    rfl
  refine ⟨listStart theType theOlType ++ text, ?_, hstacks, htypes.trans hrep, ?_⟩
  · rw [hcontents, StringBuffer.contents_addString]
    simp
  · have hlist := leads_listStart htype hol (openElements st.listTypes)
    rw [Nat.succ_eq_add_one, ← hrep]
    exact hlist.append hleads

/-- Each level that is closed closes its item and its list. -/
theorem closeLevels_leads (h : st.Stacks) {n : Nat} (hn : n ≤ st.listTypes.length)
    (result : StringBuffer) :
    ∃ text, (closeLevels n st result).2.contents = result.contents ++ text ∧
      (closeLevels n st result).1.Stacks ∧
      (closeLevels n st result).1.listTypes = st.listTypes.drop n ∧
      Leads listNames text (openElements st.listTypes) (openElements (st.listTypes.drop n)) := by
  induction n generalizing st result with
  | zero => exact ⟨[], by simp [closeLevels], h, rfl, .refl⟩
  | succ n ih =>
    obtain ⟨t, ts, hts⟩ := List.exists_cons_of_length_pos (by omega : 0 < st.listTypes.length)
    have hel := h.elements
    rw [hts, List.map_cons] at hel
    have hpop : { st with
        listTypes := st.listTypes.tail
        listElements := st.listElements.tail }.Stacks :=
      ⟨fun t' ht' => h.types t' (List.mem_of_mem_tail ht'), by simp [h.elements]⟩
    have hlen : n ≤ st.listTypes.tail.length := by
      rw [List.length_tail]
      omega
    obtain ⟨text, hcontents, hstacks, htypes, hleads⟩ := ih hpop hlen
      ((result.addString (some (str "</" ++ st.listElements.headD [] ++ str ">\n"))).addString
        (some (str "</" ++ st.listTypes.headD [] ++ str ">\n")))
    refine ⟨str "</" ++ str "LI" ++ str ">\n" ++ (str "</" ++ t ++ str ">\n") ++ text, ?_, hstacks,
      ?_, ?_⟩
    · rw [closeLevels, hcontents, StringBuffer.contents_addString, StringBuffer.contents_addString,
        hel, hts]
      simp
    · rw [closeLevels, htypes, hts]
      rfl
    · have ht : t ∈ listTypeNames := h.types t (by simp [hts])
      have hli : Leads listNames (str "</" ++ str "LI" ++ str ">\n") (openElements (t :: ts))
          (t :: openElements ts) := leads_close (by decide) _
      have hlist := leads_close (List.mem_append_left [str "LI"] ht) (openElements ts)
      rw [hts] at hleads ⊢
      exact (hli.append hlist).append hleads

/-! ### Events -/

/-- The item of the innermost list is closed, if there is one. -/
theorem closeElement_leads (h : st.Stacks) (result : StringBuffer) :
    ∃ text, (closeElement st result).contents = result.contents ++ text ∧
      Leads listNames text (openElements st.listTypes) (openElements st.listTypes).tail := by
  have hel := h.elements
  rw [closeElement]
  cases hts : st.listTypes with
  | nil =>
    rw [hts, List.map_nil] at hel
    rw [hel]
    exact ⟨[], by simp, .refl⟩
  | cons t ts =>
    rw [hts, List.map_cons] at hel
    rw [hel]
    exact ⟨_, StringBuffer.contents_addString .., leads_close (by decide) _⟩

/-- The text of `emitList` leads to the lists of the new level, the last one without an item. -/
theorem emitList_leads {theType theElement : Bytes} {theDepth : Nat} (marker : Option Bytes)
    (hkind : 0 < theDepth → theType ∈ listTypeNames ∧ theElement = str "LI") (h : st.Stacks) :
    (emitList theType theElement theDepth marker st).2.Stacks ∧
      (emitList theType theElement theDepth marker st).2.listTypes.length = theDepth ∧
      (0 < theDepth →
        (emitList theType theElement theDepth marker st).2.listTypes.head? = some theType) ∧
      Leads listNames ((emitList theType theElement theDepth marker st).1.getD [])
        (openElements st.listTypes)
        (openElements (emitList theType theElement theDepth marker st).2.listTypes).tail := by
  have hlist : { st with isList := true }.Stacks := ⟨h.types, h.elements⟩
  rw [emitList]
  dsimp only
  generalize hlevels : (if st.listTypes.length < theDepth then
      openLevels theType theElement (olType marker) (theDepth - st.listTypes.length) true
        { st with isList := true } {}
    else if st.listTypes.length > theDepth then
      ((closeLevels (st.listTypes.length - theDepth) { st with isList := true } {}).1,
        closeElement (closeLevels (st.listTypes.length - theDepth) { st with isList := true } {}).1
          (closeLevels (st.listTypes.length - theDepth) { st with isList := true } {}).2)
    else ({ st with isList := true }, closeElement { st with isList := true } {})) = levels
  have hleads : levels.1.Stacks ∧ levels.1.listTypes.length = theDepth ∧
      Leads listNames levels.2.contents (openElements st.listTypes)
        (openElements levels.1.listTypes).tail := by
    rw [← hlevels]
    split_ifs with hopen hclose
    · obtain ⟨htype, rfl⟩ := hkind (by omega)
      obtain ⟨text, hcontents, hstacks, htypes, hleads⟩ := openLevels_first_leads htype
        (olType_cases marker) (by omega : 0 < theDepth - st.listTypes.length) hlist {}
      refine ⟨hstacks, ?_, ?_⟩
      · rw [htypes]
        simp only [List.length_append, List.length_replicate]
        omega
      · rw [hcontents, htypes]
        exact hleads
    · obtain ⟨text, hcontents, hstacks, htypes, hleads⟩ := closeLevels_leads hlist
        (by dsimp only; omega : st.listTypes.length - theDepth ≤
          { st with isList := true }.listTypes.length) {}
      obtain ⟨text', hcontents', hleads'⟩ := closeElement_leads hstacks
        (closeLevels (st.listTypes.length - theDepth) { st with isList := true } {}).2
      refine ⟨hstacks, ?_, ?_⟩
      · rw [htypes]
        simp only [List.length_drop]
        omega
      · rw [hcontents', hcontents]
        rw [htypes] at hleads' ⊢
        exact hleads.append hleads'
    · obtain ⟨text, hcontents, hleads⟩ := closeElement_leads hlist {}
      refine ⟨hlist, by dsimp only; omega, ?_⟩
      rw [hcontents]
      exact hleads
  obtain ⟨st', result⟩ := levels
  obtain ⟨hstacks, hlen, hleads⟩ := hleads
  dsimp only at hstacks hlen hleads ⊢
  cases htypes : st'.listTypes with
  | nil =>
    rw [htypes] at hlen hleads
    dsimp only
    rw [(StringBuffer.toString_contents result).1, htypes]
    exact ⟨hstacks, hlen, fun hpos => absurd hpos (by simp [← hlen]), hleads⟩
  | cons lastType rest =>
    have hpos : 0 < theDepth := by
      rw [htypes] at hlen
      simp [← hlen]
    obtain ⟨htype, rfl⟩ := hkind hpos
    rw [htypes] at hlen hleads
    dsimp only
    split_ifs with hsame
    · refine ⟨⟨?_, ?_⟩, hlen, fun _ => rfl, ?_⟩
      · intro t ht
        rcases List.mem_cons.mp ht with rfl | ht
        · exact htype
        · exact hstacks.types t (by simp [htypes, ht])
      · simp [hstacks.elements, htypes]
      · rw [(StringBuffer.toString_contents _).1, StringBuffer.contents_addString]
        have hlast : lastType ∈ listTypeNames := hstacks.types lastType (by simp [htypes])
        have hclose := leads_close (List.mem_append_left [str "LI"] hlast) (openElements rest)
        have hopen := leads_open (List.mem_append_left [str "LI"] htype) (openElements rest)
        have hbetween : str ">\n<" = str ">\n" ++ str "<" := by decide
        have hchange := hleads.append (hclose.append hopen)
        simpa [hbetween, openElements_cons] using hchange
    · rw [(StringBuffer.toString_contents result).1, htypes]
      refine ⟨hstacks, hlen, fun _ => ?_, hleads⟩
      rw [not_not] at hsame
      rw [hsame]
      rfl

/-- Closing all lists. -/
theorem closeLists_leads (h : st.Stacks) :
    (emitList [] [] 0 none st).2.listTypes = [] ∧ (emitList [] [] 0 none st).2.Stacks ∧
      Leads listNames ((emitList [] [] 0 none st).1.getD []) (openElements st.listTypes) [] := by
  have hkind : 0 < 0 → ([] : Bytes) ∈ listTypeNames ∧ ([] : Bytes) = str "LI" :=
    fun hpos => absurd hpos (by simp)
  obtain ⟨hstacks, hlen, _, hleads⟩ := emitList_leads none hkind h
  have hnil := List.length_eq_zero_iff.mp hlen
  rw [hnil] at hleads
  exact ⟨hnil, hstacks, hleads⟩

/-- The state after an event: the level and the type of an item, or no list. -/
def ListEvent.Done (event : ListEvent) (run : ListRun) : Prop :=
  match event with
  | .item theType level _ _ =>
    run.st.listTypes.length = level ∧ run.st.listTypes.head? = some theType.name
  | .close => run.st.listTypes = [] ∧ Nested (tagsNamed listNames run.emitted)

/-- One event keeps what was emitted and the stacks together. -/
theorem ListRun.Open.step {run : ListRun} (h : run.Open) (event : ListEvent) :
    (run.step event).Open ∧ event.Done (run.step event) := by
  cases event with
  | item theType level hlevel marker =>
    have htype : theType.name ∈ listTypeNames := by cases theType <;> decide
    have hkind : 0 < level → theType.name ∈ listTypeNames ∧ str "LI" = str "LI" :=
      fun _ => ⟨htype, rfl⟩
    obtain ⟨hstacks, hlen, hhead, hleads⟩ := emitList_leads marker hkind h.held
    have hli : ∀ a, Leads listNames (str "<LI> ") a (str "LI" :: a) := fun a =>
      .opens (by decide) (by decide)
    refine ⟨⟨hstacks, ?_⟩, hlen, hhead hlevel⟩
    obtain ⟨t, ts, hts⟩ := List.exists_cons_of_length_pos (hlen ▸ hlevel)
    have hitem := (h.leads.append hleads).append (hli _)
    rw [hts] at hitem
    change Leads _ _ _ (openElements
      (emitList theType.name (str "LI") level marker run.st).2.listTypes)
    rw [hts]
    exact hitem
  | close =>
    obtain ⟨hnil, hstacks, hleads⟩ := closeLists_leads h.held
    have hclose := h.leads.append hleads
    refine ⟨⟨hstacks, ?_⟩, hnil, hclose.2⟩
    change Leads _ _ _ (openElements (emitList [] [] 0 none run.st).2.listTypes)
    rw [hnil]
    exact hclose

/-- The run of some events from empty stacks. -/
def listRun (st : FormatterState) (events : List ListEvent) : ListRun :=
  events.foldl ListRun.step ⟨{ st with listTypes := [], listElements := [] }, []⟩

theorem listRun_open (st : FormatterState) (events : List ListEvent) :
    (listRun st events).Open := by
  have hfold : ∀ (events : List ListEvent) (run : ListRun), run.Open →
      (events.foldl ListRun.step run).Open := by
    intro events
    induction events with
    | nil => exact fun _ h => h
    | cons event events ih => exact fun run h => ih _ (h.step event).1
  exact hfold events _ ⟨⟨by simp, rfl⟩, .refl⟩

/-- The tags of lists are nested at any time, and what is open is what the stacks hold: each list
with an item. -/
theorem listRun_nested (st : FormatterState) (events : List ListEvent) :
    nest [] (tagsNamed listNames (listRun st events).emitted) =
        some (openElements (listRun st events).st.listTypes) ∧
      (listRun st events).st.listElements =
        List.replicate (listRun st events).st.listTypes.length (str "LI") ∧
      ∀ event, events.getLast? = some event → event.Done (listRun st events) := by
  have hopen := listRun_open st events
  refine ⟨hopen.leads.2, ?_, fun event hlast => ?_⟩
  · rw [hopen.held.elements, List.map_const']
  · obtain ⟨before, rfl⟩ := List.getLast?_eq_some_iff.mp hlast
    rw [listRun, List.foldl_append]
    exact ((listRun_open st before).step event).2

end MoonWiki
