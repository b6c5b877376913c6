import MoonWiki.LinePatterns
import MoonWiki.WikiEngine

/-! The labels and the anchors of internal links. -/
namespace MoonWiki
open Lua

variable {env : FormatterEnv} {st : FormatterState} {t u v label : Bytes} {anchor : Option Bytes}

/-! ### Elements -/

/-- The element of a link; a page that is to be written has a question mark after it. -/
structure LinkElement where
  href : Bytes
  shown : Bytes
  isNew : Bool
  quoted : ch '"' ∉ href

def LinkElement.html (e : LinkElement) : Bytes :=
  if e.isNew then
    str "<SPAN class=\"twikiNewLink\" style=\"background : #FFFFCE;\"><FONT color=\"#0000FF\">" ++
      (e.shown ++ (str "</FONT><A href=\"" ++ (e.href ++ str "\"><SUP>?</SUP></A></SPAN>")))
  else str "<A class=\"twikiLink\" href=\"" ++ (e.href ++ (str "\">" ++ (e.shown ++ str "</A>")))

/-- The element of a written page tells what it shows. -/
theorem LinkElement.shown_unique {e e' : LinkElement} (he : e.isNew = false)
    (h : e'.html = e.html) : e'.href = e.href ∧ e'.shown = e.shown := by
  have hquote : str "\">" = ch '"' :: str ">" := by decide
  cases he' : e'.isNew with
  | true =>
    have hspan : ∃ s, e'.html = ch '<' :: ch 'S' :: s := by
      rw [html, if_pos he']
      exact ⟨_, rfl⟩
    have hlink : ∃ s, e.html = ch '<' :: ch 'A' :: s := by
      rw [html, if_neg (by simp [he])]
      exact ⟨_, rfl⟩
    obtain ⟨s, hs⟩ := hspan
    obtain ⟨s', hs'⟩ := hlink
    rw [hs, hs'] at h
    exact absurd (List.cons.inj (List.cons.inj h).2).1 (by decide)
  | false =>
    rw [html, html, if_neg (by simp [he']), if_neg (by simp [he]), hquote] at h
    obtain ⟨hhref, hshown⟩ := append_mark_inj e'.quoted e.quoted (List.append_cancel_left h)
    exact ⟨hhref, List.append_cancel_right (List.append_cancel_left hshown)⟩

theorem existentPageLink_html (topic text : Bytes) :
    existentPageLink .wiki topic text = str "<A class=\"twikiLink\" href=\"" ++
      (formatS topic ++ (str "\">" ++ (text ++ str "</A>"))) := by
  have hopen : str "<A class=\"twikiLink\" href=\"" = str "<" ++ (str "A" ++ (str " " ++
      (formatS (str "class") ++ (str "=\"" ++ (formatS (str "twikiLink") ++ (str "\"" ++
        (str " " ++ (formatS (str "href") ++ str "=\"")))))))) := by decide
  have hmark : str "\">" = str "\"" ++ str ">" := by decide
  have hclose : str "</A>" = str "</" ++ (str "A" ++ str ">") := by decide
  rw [hopen, hmark, hclose]
  simp [existentPageLink, htk, attr]

theorem nonExistentPageLink_html (topic text : Bytes) :
    nonExistentPageLink .wiki topic text =
      str "<SPAN class=\"twikiNewLink\" style=\"background : #FFFFCE;\"><FONT color=\"#0000FF\">" ++
        (text ++ (str "</FONT><A href=\"" ++ (formatS (str "EditPage?page=" ++ topic) ++
          str "\"><SUP>?</SUP></A></SPAN>"))) := by
  have hopen :
      str "<SPAN class=\"twikiNewLink\" style=\"background : #FFFFCE;\"><FONT color=\"#0000FF\">" =
        str "<" ++ (str "SPAN" ++ (attr "class" (str "twikiNewLink") ++
          (attr "style" (str "background : #FFFFCE;") ++ (str ">" ++ (str "<" ++ (str "FONT" ++
            (attr "color" (str "#0000FF") ++ str ">"))))))) := by decide
  have hmark : str "</FONT><A href=\"" = str "</" ++ (str "FONT" ++ (str ">" ++ (str "<" ++
      (str "A" ++ (str " " ++ (formatS (str "href") ++ str "=\"")))))) := by decide
  have hclose : str "\"><SUP>?</SUP></A></SPAN>" = str "\"" ++ (str ">" ++
      (htk "SUP" [] [str "?"] ++ (str "</" ++ (str "A" ++ (str ">" ++ (str "</" ++
        (str "SPAN" ++ str ">"))))))) := by decide
  rw [hopen, hmark, hclose]
  have hattr : ∀ x, attr "href" x = str " " ++ (formatS (str "href") ++ (str "=\"" ++
      (formatS x ++ str "\""))) := by simp [attr]
  simp [nonExistentPageLink, htk, hattr]

theorem formatS_eq_self (h : ∀ b ∈ v, b ≠ 0) : formatS v = v := by
  rw [formatS, cString_eq_self h, ite_self]

/-- The bytes of locations, and of the texts that are made from names. -/
def isLinkByte (b : Byte) : Bool := isAlnum b || (str "#?=").contains b

theorem Plain.linkBytes (ht : Plain t) : ∀ b ∈ t, isLinkByte b = true :=
  fun b hb => by simp [isLinkByte, ht b hb]

theorem LinkCall.withAnchor_bytes {call : LinkCall} (ht : Plain t)
    (hanchor : ∀ a ∈ call.anchor, Plain a) : ∀ b ∈ call.withAnchor t, isLinkByte b = true := by
  have hmark : ∀ b ∈ str "#", isLinkByte b = true := by decide
  rw [LinkCall.withAnchor]
  cases hcall : call.anchor with
  | none => exact ht.linkBytes
  | some a =>
    intro b hb
    rcases List.mem_append.mp hb with hb | hb
    · exact (List.mem_append.mp hb).elim (ht.linkBytes b) (hmark b)
    · exact (hanchor a hcall).linkBytes b hb

theorem linkByte_facts (b : Byte) (hb : isLinkByte b = true) :
    b ≠ 0 ∧ b ≠ ch '"' ∧ b ≠ ch ':' ∧ b ≠ ch ']' ∧ isSpace b = false ∧
      wordItem.takes b = false := by
  revert hb
  revert b
  refine forall_byte ?_
  decide +kernel

/-- The element shows what the call asks for. -/
structure LinkCall.Renders (env : FormatterEnv) (call : LinkCall) (e : LinkElement) : Prop where
  href : call.href env = some e.href
  isNew : e.isNew = true ↔ call.target env = .missing
  special : call.target env = .special → e.href = call.topic ∧ e.shown = call.topic
  existing : ∀ u, call.target env = .existing u → e.href = call.withAnchor u
  label : call.target env ≠ .special → ∀ text ∈ call.text, e.shown = text
  hrefBytes : ∀ b ∈ e.href, isLinkByte b = true
  shownBytes : call.text = none → ∀ b ∈ e.shown, isLinkByte b = true

/-- What `internalLink` returns for a name of letters and digits. -/
theorem internalLink_element (call : LinkCall) (hcls : env.cls = .wiki) (ht : Plain call.topic)
    (hanchor : ∀ a ∈ call.anchor, Plain a) (st : FormatterState) :
    ∃ e : LinkElement, (internalLink env call.topic call.anchor call.text st).1 = e.html ∧
      call.Renders env e := by
  have hlink := WikiFormatter.internalLink_eq env call st
  have hself : ∀ {v : Bytes}, (∀ b ∈ v, isLinkByte b = true) → formatS v = v :=
    fun hv => formatS_eq_self fun b hb => (linkByte_facts b (hv b hb)).1
  have hquote : ∀ {v : Bytes}, (∀ b ∈ v, isLinkByte b = true) → ch '"' ∉ v :=
    fun hv hb => (linkByte_facts _ (hv _ hb)).2.1 rfl
  have htext : ∀ {other : Bytes}, (∀ b ∈ other, isLinkByte b = true) →
      call.text = none → ∀ b ∈ call.text.getD other, isLinkByte b = true := by
    intro other hother hnone
    rwa [hnone]
  rw [internalLink, hcls]
  rw [hcls] at hlink
  cases htarget : call.target env with
  | special =>
    rw [htarget] at hlink
    have hhref : call.href env = some (formatS call.topic) := by simp [LinkCall.href, hcls, htarget]
    have hlocation := hself ht.linkBytes
    refine ⟨⟨call.topic, call.topic, false, hquote ht.linkBytes⟩, ?_, ?_⟩
    · refine hlink.trans ((existentPageLink_html ..).trans ?_)
      rw [hlocation]
      rfl
    · exact ⟨hhref.trans (congrArg some hlocation), by simp [htarget], fun _ => ⟨rfl, rfl⟩,
        by simp [htarget], fun h => absurd htarget h, ht.linkBytes, fun _ => ht.linkBytes⟩
  | existing u =>
    rw [htarget] at hlink
    have hhref : call.href env = some (formatS (call.withAnchor u)) := by
      simp [LinkCall.href, hcls, htarget]
    have hu := LinkCall.withAnchor_bytes (existing_plain ht htarget) hanchor
    have hlocation := hself hu
    refine ⟨⟨call.withAnchor u, call.text.getD (call.withAnchor call.topic), false, hquote hu⟩,
      ?_, ?_⟩
    · refine hlink.trans ((existentPageLink_html ..).trans ?_)
      rw [hlocation]
      rfl
    · refine ⟨hhref.trans (congrArg some hlocation), by simp [htarget], by simp [htarget],
        fun u' hu' => ?_, fun _ text h => ?_, hu, htext (LinkCall.withAnchor_bytes ht hanchor)⟩
      · rw [htarget] at hu'
        exact congrArg call.withAnchor (LinkTarget.existing.inj hu')
      · simp [Option.mem_def.mp h]
  | missing =>
    rw [htarget] at hlink
    have hhref : call.href env = some (formatS (str "EditPage?page=" ++ call.topic)) := by
      simp [LinkCall.href, hcls, htarget]
    have hedit : ∀ b ∈ str "EditPage?page=", isLinkByte b = true := by decide
    have hu : ∀ b ∈ str "EditPage?page=" ++ call.topic, isLinkByte b = true := fun b hb =>
      (List.mem_append.mp hb).elim (hedit b) (ht.linkBytes b)
    have hlocation := hself hu
    refine ⟨⟨str "EditPage?page=" ++ call.topic, call.text.getD call.topic, true, hquote hu⟩,
      ?_, ?_⟩
    · refine hlink.trans ((nonExistentPageLink_html ..).trans ?_)
      rw [hlocation]
      rfl
    · refine ⟨hhref.trans (congrArg some hlocation), by simp [htarget], by simp [htarget],
        by simp [htarget], fun _ text h => ?_, hu, htext ht.linkBytes⟩
      simp [Option.mem_def.mp h]

/-! ### The two ways to write a link -/

/-- The blanks around a link are stripped; a text without blanks stays. -/
theorem strip_solid (h : ∀ b ∈ v, isSpace b = false) :
    gsubStr (pat "%s*$") [] (gsubStr (pat "^%s*") [] v) = v := by
  have hhead : pat "^%s*" = ⟨true, [.single (.cls (ch 's')) .star]⟩ := by decide
  have hend : pat "%s*$" = ⟨false, [.single (.cls (ch 's')) .star, .eos]⟩ := by decide
  have hno : ∀ {is : List Item} {r : Bytes × List Capture} {v : Bytes},
      (∀ b ∈ v, isSpace b = false) → doMatch is [] v = some r →
        doMatch (.single (.cls (ch 's')) .star :: is) [] v = some r := by
    intro is r v hv hr
    exact doMatch_star (u := []) (by simp) (fun b t hb => hv b (by simp [hb])) hr
  have hfirst : gsubStr (pat "^%s*") [] v = v := by
    have hmatch : matchHere [.single (.cls (ch 's')) .star] ([] ++ v) = some ⟨[], [[]], v⟩ :=
      matchHere_of_doMatch (u := []) (c := []) (hno h rfl)
    rw [hhead, gsubStr, replaceAll_anchor, ← List.nil_append v, hmatch]
    rfl
  rw [hfirst, hend, gsubStr]
  clear hfirst
  induction v with
  | nil => decide
  | cons b v ih =>
    have hmiss : matchHere [.single (.cls (ch 's')) .star, .eos] (b :: v) = none := by
      refine matchHere_eq_none ?_
      rw [doMatch, expand, maxExpand, if_neg]
      · rfl
      · rw [Bool.not_eq_true]
        exact h b (List.mem_cons_self ..)
    rw [replaceAll_miss hmiss, ih fun d hd => h d (List.mem_cons_of_mem _ hd)]

/-- The anchor is cut off the name. -/
theorem anchor_cut {a : Bytes} (ht : Plain t) (ha : IsWikiWord a) :
    gfind (pat "#(%u+%l+%u+[%a%d]*)") (t ++ ch '#' :: a) = [[a]] ∧
      gsub (pat "#(%u+%l+%u+[%a%d]*)") (fun _ => []) (t ++ ch '#' :: a) = t := by
  have hpat : pat "#(%u+%l+%u+[%a%d]*)" =
      ⟨false, .single (.lit (ch '#')) .one :: .startCapture :: wordItems⟩ := by decide
  have hrun : ∀ b ∈ t, singleMatch b (.lit (ch '#')) = false := fun b hb =>
    decide_eq_false (ne_of_test (ht b hb) (by decide)).symm
  have hword : doMatch wordItems ([] ++ [.unfinished a]) (a ++ []) = _ :=
    doMatch_wordItems ha (by simp)
  have hmatch : matchHere (.single (.lit (ch '#')) .one :: .startCapture :: wordItems)
      ((ch '#' :: a) ++ []) = some ⟨ch '#' :: a, [a], []⟩ := by
    refine matchHere_of_doMatch (c := [.done a]) ?_
    rw [List.cons_append, doMatch_one (by decide), doMatch, List.nil_append,
      ← List.nil_append [Capture.unfinished _], List.append_nil]
    simpa using hword
  have hnil : scanFrom (.single (.lit (ch '#')) .one :: .startCapture :: wordItems) 0 [] = [] := by
    decide
  have hhit := scanFrom_hit hmatch (List.cons_ne_nil _ _)
  rw [List.append_nil] at hhit
  have hscan : scan (pat "#(%u+%l+%u+[%a%d]*)") (t ++ ch '#' :: a) =
      t.map .copy ++ [.hit ⟨ch '#' :: a, [a], []⟩] := by
    rw [hpat, scan, if_neg (by simp), scanFrom_run (c := .lit (ch '#')) rfl hrun, hhit, hnil]
  rw [gfind, allMatches, gsub, replaceAll, hscan]
  constructor
  · rw [List.filterMap_append, List.filterMap_map]
    have hcopies : t.filterMap (Piece.hit? ∘ .copy) = [] :=
      List.filterMap_eq_nil_iff.mpr fun _ _ => rfl
    rw [hcopies]
    rfl
  · simp [List.flatMap_map]

def bracketItem (b : Byte) : Item := .single (.cls b) .one

def unbracketed : Single := .set true [.cls (ch ']')]

/-- A bracket link on a line is given to `specificLink`. -/
theorem hyperLinks_bracket {link : Bytes} (hlink : link ≠ []) (hbracket : ch ']' ∉ link)
    (hlabel : label ≠ []) (hbracket' : ch ']' ∉ label) (st : FormatterState) :
    (hyperLinks env (str "[[" ++ link ++ str "][" ++ label ++ str "]]") st).1 =
      (specificLink env link label st).1 := by
  have hpat : pat "%[%[([^%]]+)%]%[([^%]]+)%]%]" = ⟨false, [bracketItem (ch '['),
      bracketItem (ch '['), .startCapture, .single unbracketed .plus, .endCapture,
      bracketItem (ch ']'), bracketItem (ch '['), .startCapture, .single unbracketed .plus,
      .endCapture, bracketItem (ch ']'), bracketItem (ch ']')]⟩ := by decide
  have hclosed : ∀ b : Byte, b ≠ ch ']' → singleMatch b unbracketed = true := by
    refine forall_byte ?_
    decide +kernel
  have hword : ∀ {is : List Item} {caps : List Capture} {v rest : Bytes}
      {r : Bytes × List Capture}, v ≠ [] → ch ']' ∉ v →
      doMatch is (caps ++ [.done v]) (ch ']' :: rest) = some r →
      doMatch (.startCapture :: .single unbracketed .plus :: .endCapture :: is) caps
        (v ++ ch ']' :: rest) = some r := by
    intro is caps v rest r hne hv hr
    refine doMatch_capture_plus hne (fun b hb => hclosed b ?_) (fun b t hb => ?_) hr
    · rintro rfl
      exact hv hb
    · obtain ⟨rfl, _⟩ := List.cons.inj hb
      decide
  have hone : ∀ {is : List Item} {caps : List Capture} {b : Byte} {rest : Bytes},
      isAlnum b = false → doMatch (bracketItem b :: is) caps (b :: rest) = doMatch is caps rest :=
    fun hb => doMatch_one ((matchClass_literal hb _).mpr rfl)
  have hline : str "[[" ++ link ++ str "][" ++ label ++ str "]]" =
      (ch '[' :: ch '[' :: (link ++ ch ']' :: ch '[' :: (label ++ [ch ']', ch ']']))) ++ [] := by
    simp [show str "[[" = [ch '[', ch '['] by decide, show str "][" = [ch ']', ch '['] by decide,
      show str "]]" = [ch ']', ch ']'] by decide]
  have hd : doMatch (pat "%[%[([^%]]+)%]%[([^%]]+)%]%]").items []
      ((ch '[' :: ch '[' :: (link ++ ch ']' :: ch '[' :: (label ++ [ch ']', ch ']']))) ++ []) =
        some ([], [.done link, .done label]) := by
    rw [hpat, List.append_nil, hone (by decide), hone (by decide)]
    refine hword hlink hbracket ?_
    rw [hone (by decide), hone (by decide)]
    refine hword hlabel hbracket' ?_
    rw [hone (by decide), hone (by decide)]
    rfl
  have hhit := scanFrom_hit (matchHere_of_doMatch hd) (List.cons_ne_nil _ _)
  have hnil : scanFrom (pat "%[%[([^%]]+)%]%[([^%]]+)%]%]").items 0 [] = [] := by decide
  have hscan : ∀ s, scan (pat "%[%[([^%]]+)%]%[([^%]]+)%]%]") s =
      scanFrom (pat "%[%[([^%]]+)%]%[([^%]]+)%]%]").items 0 s := fun _ => rfl
  rw [hyperLinks, gsubState_eq, hline, hscan, hhit, hnil]
  rfl

/-- The brackets call `internalLink` with the topic and the anchor. -/
theorem specificLink_word (ht : IsWikiWord t) (hanchor : ∀ a ∈ anchor, IsWikiWord a)
    (label : Bytes) (st : FormatterState) :
    specificLink env (LinkCall.withAnchor ⟨t, anchor, some label⟩ t) label st =
      internalLink env t anchor (some label) st := by
  have hlink : ∀ b ∈ LinkCall.withAnchor ⟨t, anchor, some label⟩ t, isLinkByte b = true :=
    LinkCall.withAnchor_bytes ht.alnum fun a ha => (hanchor a ha).alnum
  have hcolon : ch ':' ∉ LinkCall.withAnchor ⟨t, anchor, some label⟩ t :=
    fun hb => (linkByte_facts _ (hlink _ hb)).2.2.1 rfl
  have hscheme : found (pat "^%w+:") (LinkCall.withAnchor ⟨t, anchor, some label⟩ t) = false := by
    rw [Bool.eq_false_iff, ne_eq, found_iff_not_misses, not_not]
    exact .of_needs (x := ch ':') (by decide) hcolon
  have hstrip := strip_solid fun b hb => (linkByte_facts b (hlink b hb)).2.2.2.2.1
  rw [specificLink]
  simp only [hstrip, hscheme, Bool.false_eq_true, ↓reduceIte]
  cases anchor with
  | none =>
    have hhash : ch '#' ∉ t := fun hb => absurd (ht.alnum _ hb) (by decide)
    have hmiss : (pat "#(%u+%l+%u+[%a%d]*)").Misses t := .of_needs (x := ch '#') (by decide) hhash
    rw [LinkCall.withAnchor, gfind_misses hmiss, gsub, replaceAll_misses hmiss]
    rfl
  | some a =>
    have hcut := anchor_cut (a := a) ht.alnum (hanchor a rfl)
    have hwith : LinkCall.withAnchor ⟨t, some a, some label⟩ t = t ++ ch '#' :: a := by
      simp [LinkCall.withAnchor, show str "#" = [ch '#'] by decide]
    rw [hwith, hcut.1, hcut.2]
    rfl

theorem LinkElement.html_leads {e : LinkElement} (hhref : ∀ b ∈ e.href, wordItem.takes b = false)
    (hshown : ∀ b ∈ e.shown, wordItem.takes b = false) : LeadsNoWord e.html := by
  rw [html]
  split_ifs
  · refine Leads.append (by decide +kernel) (.append (.solid hshown)
      (.append (by decide +kernel) ?_))
    exact .append (.solid hhref) (by decide +kernel)
  · refine Leads.append (by decide +kernel) (.append (.solid hhref)
      (.append (by decide +kernel) ?_))
    exact .append (.solid hshown) (by decide +kernel)

theorem LinkElement.html_head (e : LinkElement) : ∃ s, e.html = ch '<' :: s := by
  rw [html]
  split_ifs <;> exact ⟨_, rfl⟩

theorem matchHere_anchored {a : Bytes} (ht : IsWikiWord t) (ha : IsWikiWord a) :
    matchHere anchoredPattern.items (ch ' ' :: (t ++ ch '#' :: a)) =
      some ⟨ch ' ' :: (t ++ ch '#' :: a), [[ch ' '], t, a], []⟩ := by
  have hitems : anchoredPattern.items = .startCapture :: wordItem :: .endCapture ::
      .startCapture :: (wordItems ++
        .single (.lit (ch '#')) .one :: .startCapture :: wordItems) := by decide
  have hanchor : doMatch wordItems ([.done [ch ' '], .done t] ++ [.unfinished a]) (a ++ []) = _ :=
    doMatch_wordItems ha (by simp)
  have hrest : doMatch (.single (.lit (ch '#')) .one :: .startCapture :: wordItems)
      ([.done [ch ' ']] ++ [.done t]) (ch '#' :: a) =
        some ([], [.done [ch ' '], .done t, .done a]) := by
    rw [doMatch_one (by decide), doMatch]
    simpa using hanchor
  have hword : doMatch (wordItems ++ .single (.lit (ch '#')) .one :: .startCapture :: wordItems)
      ([.done [ch ' ']] ++ [.unfinished (t ++ ch '#' :: a)]) (t ++ ch '#' :: a) =
        some ([], [.done [ch ' '], .done t, .done a]) := by
    refine doMatch_wordItems_append ht (fun b s hb => ?_) ?_
    · obtain ⟨rfl, _⟩ := List.cons.inj hb
      decide
    · rw [List.length_append, Nat.add_sub_cancel, List.take_left]
      exact hrest
  have hd : doMatch anchoredPattern.items [] ((ch ' ' :: (t ++ ch '#' :: a)) ++ []) =
      some ([], [.done [ch ' '], .done t, .done a]) := by
    rw [List.append_nil, hitems, doMatch, wordItem, doMatch_one (by decide)]
    exact (doMatch_endCapture [ch ' '] _).trans hword
  have hmatch := matchHere_of_doMatch hd
  rwa [List.append_nil] at hmatch

/-- What the anchored form is rendered to. -/
theorem autoLinks_anchored {a : Bytes} (hcls : env.cls = .wiki) (ht : IsWikiWord t)
    (ha : IsWikiWord a) (hst : st.insideNoAutoLink = false) :
    (autoLinks env (ch ' ' :: (t ++ ch '#' :: a)) st).1 =
      ch ' ' :: (internalLink env t (some a) none st).1 := by
  have hplain : ∀ b ∈ some a, Plain b := fun b hb => Option.some.inj hb ▸ ha.alnum
  obtain ⟨e, hlink, he⟩ :=
    internalLink_element ⟨t, some a, none⟩ hcls ht.alnum hplain {}
  have hmatch : gsub anchoredPattern (autoText env anchoredCall) (ch ' ' :: (t ++ ch '#' :: a)) =
      ch ' ' :: e.html := by
    have hhit := replaceAll_hit (f := fun m => autoText env anchoredCall m.captures)
      (matchHere_anchored ht ha) (List.cons_ne_nil _ _)
    have hempty : matchHere anchoredPattern.items [] = none := matchHere_nil (by decide)
    have hnil := replaceAll_nil (f := fun m => autoText env anchoredCall m.captures) hempty
    rw [hnil, List.append_nil] at hhit
    exact hhit.trans (congrArg (ch ' ' :: ·) hlink)
  have hmiss : plainPattern.Misses (ch ' ' :: e.html) := by
    have hsolid : ∀ {v : Bytes}, (∀ b ∈ v, isLinkByte b = true) →
        ∀ b ∈ v, wordItem.takes b = false :=
      fun hv b hb => (linkByte_facts b (hv b hb)).2.2.2.2.2
    have hleads := LinkElement.html_leads (hsolid he.hrefBytes) (hsolid (he.shownBytes rfl))
    obtain ⟨s, hs⟩ := e.html_head
    rw [hs] at hleads ⊢
    exact plainPattern_misses (hleads.1.cons_cons fun _ => by decide)
  rw [autoLinks_fst, if_neg (by simp [hst]), hmatch, gsub, replaceAll_misses hmiss,
    internalLink_fst env t (some a) none st {}, ← hlink]

/-! ### Labels -/

/-- The label is shown; and the anchor is kept, unless the page is missing. -/
def LinkCall.KeepsLabel (env : FormatterEnv) (call : LinkCall) (html : Bytes) : Prop :=
  ∃ e : LinkElement, html = e.html ∧ call.text = some e.shown ∧
    (e.isNew = true ↔ call.target env = .missing) ∧
    (e.isNew = false → ∀ a ∈ call.anchor, str "#" ++ a <:+ e.href)

/-- The two elements lead to the same location. -/
def SameHref (html html' : Bytes) : Prop :=
  ∃ e e' : LinkElement, html = e.html ∧ html' = e'.html ∧ e.href = e'.href

/-- The link `[[topic#Anchor][label]]` keeps its label and its anchor, and leads where the form
without brackets does. -/
def LabelsKept (env : FormatterEnv) (topic : Bytes) (anchor : Option Bytes) (label : Bytes)
    (st : FormatterState) : Prop :=
  let call : LinkCall := ⟨topic, anchor, some label⟩
  let html := (specificLink env (call.withAnchor topic) label st).1
  call.KeepsLabel env html ∧ ∀ a ∈ anchor, ∃ html',
    (autoLinks env (str " " ++ topic ++ str "#" ++ a) st).1 = str " " ++ html' ∧
      SameHref html html'

/-- The label and the anchor are kept, unless the topic is a special page: its link shows the name
of the page and has no anchor. -/
theorem labelsKept_iff (hcls : env.cls = .wiki) (ht : isValidTitle t = true)
    (hanchor : ∀ a ∈ anchor, isValidTitle a = true) (label : Bytes)
    (hst : st.insideNoAutoLink = false) :
    (LabelsKept env t anchor label st ↔
        (env.isSpecialPage t = true → label = t ∧ anchor = none)) ∧
      (label ≠ [] → ch ']' ∉ label →
        let link := LinkCall.withAnchor ⟨t, anchor, some label⟩ t
        (hyperLinks env (str "[[" ++ link ++ str "][" ++ label ++ str "]]") st).1 =
          (specificLink env link label st).1) := by
  have hword := isValidTitle_iff.mp ht
  have hwords : ∀ a ∈ anchor, IsWikiWord a := fun a ha => isValidTitle_iff.mp (hanchor a ha)
  obtain ⟨e, hlink, he⟩ := internalLink_element ⟨t, anchor, some label⟩ hcls hword.alnum
    (fun a ha => (hwords a ha).alnum) st
  have hbare : ∀ a ∈ anchor, ∃ html',
      (autoLinks env (str " " ++ t ++ str "#" ++ a) st).1 = str " " ++ html' ∧
        SameHref e.html html' := by
    intro a ha
    obtain rfl : anchor = some a := ha
    obtain ⟨e', hlink', he'⟩ := internalLink_element ⟨t, some a, none⟩ hcls hword.alnum
      (fun a ha => (hwords a ha).alnum) st
    refine ⟨e'.html, ?_, e, e', rfl, rfl, ?_⟩
    · have hline : str " " ++ t ++ str "#" ++ a = ch ' ' :: (t ++ ch '#' :: a) := by
        simp [show str " " = [ch ' '] by decide, show str "#" = [ch '#'] by decide]
      rw [hline, autoLinks_anchored hcls hword (hwords a rfl) hst, hlink']
      rfl
    · exact Option.some.inj (he.href.symm.trans he'.href)
  have hne : LinkCall.withAnchor ⟨t, anchor, some label⟩ t ≠ [] := by
    obtain ⟨u, _, _, _, rfl, hu, _⟩ := hword
    cases anchor <;> simp [LinkCall.withAnchor, hu]
  have hclosed : ch ']' ∉ LinkCall.withAnchor ⟨t, anchor, some label⟩ t := fun hb =>
    (linkByte_facts _ (LinkCall.withAnchor_bytes hword.alnum
      (fun a ha => (hwords a ha).alnum) _ hb)).2.2.2.1 rfl
  refine ⟨?_, fun hlabel hclosed' => hyperLinks_bracket hne hclosed hlabel hclosed' st⟩
  rw [LabelsKept]
  simp only [specificLink_word hword hwords, hlink, and_iff_left hbare]
  constructor
  · rintro ⟨e', hhtml, hshown, hnew, hmark⟩ hspecial
    have htarget : LinkCall.target env ⟨t, anchor, some label⟩ = .special := by
      rw [LinkCall.target, if_pos hspecial]
    have hold : ∀ {e : LinkElement},
        (e.isNew = true ↔ LinkCall.target env ⟨t, anchor, some label⟩ = .missing) →
          e.isNew = false := by
      intro e he
      simpa [htarget] using he
    obtain ⟨hhref, hsame⟩ := LinkElement.shown_unique (hold he.isNew) hhtml.symm
    obtain ⟨htopic, htext⟩ := he.special htarget
    refine ⟨(Option.some.inj hshown).trans (hsame.trans htext), ?_⟩
    cases anchor with
    | none => rfl
    | some a =>
      have hsuffix := hmark (hold hnew) a rfl
      rw [hhref, htopic] at hsuffix
      have hhash : ch '#' ∈ t := hsuffix.subset (List.mem_append_left a (by decide))
      exact absurd (hword.alnum _ hhash) (by decide)
  · intro hspecial
    refine ⟨e, rfl, ?_, he.isNew, fun hold a ha => ?_⟩
    · by_cases htarget : LinkCall.target env ⟨t, anchor, some label⟩ = .special
      · rw [(he.special htarget).2, (hspecial (LinkCall.target_special htarget)).1]
      · rw [he.label htarget label rfl]
    · obtain rfl : anchor = some a := ha
      cases htarget : LinkCall.target env ⟨t, some a, some label⟩ with
      | special => exact absurd (hspecial (LinkCall.target_special htarget)).2 (by simp)
      | existing u =>
        rw [he.existing u htarget]
        exact ⟨u, by simp [LinkCall.withAnchor]⟩
      | missing => exact absurd (he.isNew.mpr htarget) (by simp [hold])

theorem labelsKept_fooBar :
    let env : FormatterEnv := ⟨.wiki, isSpecialPage, fun t => t = str "FooBar"⟩
    LabelsKept env (str "FooBar") (some (str "ThePart")) (str "see here") {} := by
  intro env
  have htitle : isValidTitle (str "FooBar") = true := by decide +kernel
  have hanchor : ∀ a ∈ some (str "ThePart"), isValidTitle a = true := by decide +kernel
  have hplain : env.isSpecialPage (str "FooBar") = true →
      str "see here" = str "FooBar" ∧ some (str "ThePart") = none := by decide
  exact (labelsKept_iff rfl htitle hanchor (str "see here") rfl).1.mpr hplain

/-- A link to the page for searching does not show its label. -/
theorem labelsKept_searchPage :
    let env : FormatterEnv := ⟨.wiki, isSpecialPage, fun _ => false⟩
    isValidTitle (str "SearchPage") = true ∧
      ¬ LabelsKept env (str "SearchPage") none (str "find a page") {} := by
  intro env
  refine ⟨by decide +kernel, fun hkept => ?_⟩
  obtain ⟨⟨e, hhtml, hshown, _⟩, _⟩ := hkept
  let found : LinkElement := ⟨str "SearchPage", str "SearchPage", false, by decide⟩
  have hfound : (specificLink env (str "SearchPage") (str "find a page") {}).1 = found.html := by
    decide +kernel
  have hsame := LinkElement.shown_unique (e := found) rfl (hhtml.symm.trans hfound)
  rw [hsame.2] at hshown
  exact absurd hshown (by decide)

end MoonWiki
