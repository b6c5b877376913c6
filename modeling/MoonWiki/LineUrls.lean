import MoonWiki.PlainLines

/-! The URLs of a line. -/
namespace MoonWiki
open Lua

variable {before rest scheme start t : Bytes} {last : Byte} {v : Bytes} {m : Match}

/-! ### The pattern for URLs -/

/-- What stands for a match of the URL pattern. -/
def urlText (cls : FormatterClass) (m : Match) : Bytes :=
  m.captures.getD 0 [] ++ processUrl cls (m.captures.getD 1 []) (m.captures.getD 2 []) ++
    m.captures.getD 3 []

theorem embeddedUrls_eq (cls : FormatterClass) (line : Bytes) :
    embeddedUrls cls line = replaceAll ⟨false, urlItems⟩ (urlText cls) line := by
  rw [embeddedUrls, url_pattern]
  rfl

namespace UrlMatch

theorem text (url : UrlMatch v m) (cls : FormatterClass) :
    urlText cls m =
      url.charBefore ::
        (processUrl cls url.urlType (url.start ++ [url.last]) ++ [url.charAfter]) := by
  simp [urlText, url.captures]

theorem whole (url : UrlMatch v m) (hm : matchHere urlItems v = some m) :
    m.whole =
      url.charBefore :: (url.urlType ++ ch ':' :: (url.start ++ [url.last, url.charAfter])) := by
  have hsubject : m.whole ++ m.after =
      url.charBefore :: (url.urlType ++ ch ':' :: (url.start ++ [url.last, url.charAfter])) ++
        m.after := by
    rw [matchHere_append hm]
    refine url.subject.trans ?_
    simp
  exact List.append_cancel_right hsubject

/-- A scheme that is not known is put back. -/
theorem text_unknown (url : UrlMatch v m) (hm : matchHere urlItems v = some m)
    (cls : FormatterClass) (h : url.urlType ∉ urlTypes) : urlText cls m = m.whole := by
  rw [url.text, url.whole hm]
  cases cls <;> simp [processUrl, h, show str ":" = [ch ':'] by decide]

/-- The parts of a match in a text with one colon. -/
theorem parts (url : UrlMatch v m) (hv : v <:+ before ++ (scheme ++ ch ':' :: rest))
    (hbefore : ch ':' ∉ before ++ scheme) (hrest : ch ':' ∉ rest) :
    (∃ w, before ++ scheme = w ++ url.charBefore :: url.urlType) ∧
      rest = url.start ++ url.last :: url.charAfter :: m.after := by
  obtain ⟨w, hw⟩ := hv
  rw [url.subject, ← List.append_assoc before] at hw
  have hsplit : (before ++ scheme) ++ ch ':' :: rest =
      (w ++ url.charBefore :: url.urlType) ++
        ch ':' :: (url.start ++ url.last :: url.charAfter :: m.after) := by
    rw [← hw]
    simp
  obtain ⟨htype, _, hrest'⟩ := (List.append_cons_inj_of_notMem hbefore hrest).mp hsplit
  exact ⟨⟨w, htype⟩, hrest'⟩

end UrlMatch

/-- The scheme and the address after a blank make up the match. -/
theorem matchHere_url_hit (hscheme : scheme ≠ []) (halnum : ∀ b ∈ scheme, isAlnum b = true)
    (hstart : start ≠ []) (hbytes : ∀ b ∈ start, singleMatch b urlByte = true)
    (hlast : singleMatch last urlLast = true) :
    matchHere urlItems (ch ' ' :: (scheme ++ ch ':' :: (start ++ last :: ch ' ' :: t))) =
      some ⟨ch ' ' :: (scheme ++ ch ':' :: (start ++ [last, ch ' '])),
        [[ch ' '], scheme, start ++ [last], [ch ' ']], t⟩ := by
  have hcolon : ∀ b s, ch ':' :: (start ++ last :: ch ' ' :: t) = b :: s →
      singleMatch b (.cls (ch 'w')) = false := by
    intro b s h
    obtain ⟨rfl, _⟩ := List.cons.inj h
    decide
  have hsubject : ch ' ' :: (scheme ++ ch ':' :: (start ++ [last, ch ' '])) ++ t =
      ch ' ' :: (scheme ++ ch ':' :: (start ++ last :: ch ' ' :: t)) := by simp
  have hd : doMatch urlItems []
      (ch ' ' :: (scheme ++ ch ':' :: (start ++ [last, ch ' '])) ++ t) =
        some (t, [.done [ch ' '], .done scheme, .done (start ++ [last]), .done [ch ' ']]) := by
    rw [hsubject, urlItems, doMatch, doMatch_one (by decide)]
    refine (doMatch_endCapture [ch ' '] _).trans ?_
    refine doMatch_capture_plus hscheme halnum hcolon ?_
    rw [doMatch_one (by decide), doMatch]
    refine doMatch_plus_last hstart hbytes ?_ ?_
    · rw [doMatch_one hlast, show start ++ last :: ch ' ' :: t = (start ++ [last]) ++ ch ' ' :: t by
        simp]
      refine (doMatch_endCapture (start ++ [last]) (ch ' ' :: t)).trans ?_
      rw [doMatch, doMatch_one (by decide)]
      exact doMatch_endCapture [ch ' '] t
    · intro w x hwx hw hrun
      -- a longer run would have to take the blank, or leave it to the last byte
      obtain ⟨b, w, rfl⟩ := List.exists_cons_of_ne_nil hw
      obtain ⟨rfl, hrest⟩ := List.cons.inj hwx
      cases w with
      | nil =>
        obtain rfl : ch ' ' :: t = x := hrest
        simp [doMatch, expand, show singleMatch (ch ' ') urlLast = false by decide]
      | cons d w =>
        obtain ⟨rfl, _⟩ := List.cons.inj hrest
        exact absurd (hrun (ch ' ') (by simp)) (by decide)
  exact (congrArg (matchHere urlItems) hsubject).symm.trans (matchHere_of_doMatch hd)

/-! ### A line with one colon -/

/-- There is no match before a blank that stands before the colon. -/
theorem replaceAll_before_url (f : Match → Bytes) (hbefore : ch ':' ∉ before) (t : Bytes) :
    replaceAll ⟨false, urlItems⟩ f (before ++ ch ' ' :: t) =
      before ++ replaceAll ⟨false, urlItems⟩ f (ch ' ' :: t) := by
  induction before with
  | nil => rfl
  | cons b before ih =>
    have htail : ch ':' ∉ before := fun h => hbefore (List.mem_cons_of_mem _ h)
    have hmiss : matchHere urlItems (b :: (before ++ ch ' ' :: t)) = none := by
      cases hm : matchHere urlItems (b :: (before ++ ch ' ' :: t)) with
      | none => rfl
      | some m =>
        obtain ⟨url⟩ := matchHere_url hm
        obtain ⟨_, hsplit⟩ := List.cons.inj url.subject
        rcases List.append_eq_append_iff.mp hsplit with ⟨y, hy, hrest⟩ | ⟨y, hy, hrest⟩
        · cases y with
          | nil =>
            obtain ⟨hcolon, _⟩ := List.cons.inj hrest
            exact absurd hcolon (by decide)
          | cons d y =>
            obtain ⟨rfl, _⟩ := List.cons.inj hrest
            exact absurd (url.typeBytes.2 (ch ' ') (by simp [hy])) (by decide)
        · cases y with
          | nil =>
            obtain ⟨hcolon, _⟩ := List.cons.inj hrest
            exact absurd hcolon (by decide)
          | cons d y =>
            obtain ⟨rfl, _⟩ := List.cons.inj hrest
            exact absurd (by simp [hy]) htail
    rw [List.cons_append, replaceAll_miss hmiss, ih htail, List.cons_append]

/-- After the match there is no other. -/
theorem embeddedUrls_hit (cls : FormatterClass) (hbefore : ch ':' ∉ before)
    (hm : matchHere urlItems (ch ' ' :: t) = some m) (hafter : ch ':' ∉ m.after) :
    embeddedUrls cls (before ++ ch ' ' :: t) = before ++ (urlText cls m ++ m.after) := by
  have hne := matchHere_nonempty (by decide) hm
  have hmiss : (⟨false, urlItems⟩ : Pattern).Misses m.after :=
    .of_needs (x := ch ':') (by decide) hafter
  rw [embeddedUrls_eq, replaceAll_before_url _ hbefore, replaceAll_hit hm hne,
    replaceAll_misses hmiss]

theorem urlTypes_suffix : ∀ s ∈ urlTypes, ∀ t ∈ urlTypes, t <:+ s → t = s := by decide +kernel

theorem urlTypes_lower : ∀ s ∈ urlTypes, s ≠ [] ∧ ∀ b ∈ s, isLower b = true := by decide +kernel

/-- A line with one colon, after a known scheme: at most the URL that begins at a word becomes a
link. -/
theorem embeddedUrls_one (hscheme : scheme ∈ urlTypes) (hbefore : ch ':' ∉ before)
    (hword : before = [] ∨ ∃ w, before = w ++ [ch ' ']) (hrest : ch ':' ∉ rest) :
    embeddedUrls .wiki (before ++ (scheme ++ ch ':' :: rest)) =
        before ++ (scheme ++ ch ':' :: rest) ∨
      before ≠ [] ∧ ∃ start last charAfter tail, rest = start ++ last :: charAfter :: tail ∧
        (∀ b ∈ start, singleMatch b urlByte = true) ∧ singleMatch last urlLast = true ∧
        embeddedUrls .wiki (before ++ (scheme ++ ch ':' :: rest)) =
          before ++ (processUrl .wiki scheme (start ++ [last]) ++ charAfter :: tail) := by
  obtain ⟨hne, hlower⟩ := urlTypes_lower scheme hscheme
  have hcolon : ch ':' ∉ scheme := fun h => absurd (hlower _ h) (by decide)
  by_cases hhit : ∃ w m, before = w ++ [ch ' '] ∧
      matchHere urlItems (ch ' ' :: (scheme ++ ch ':' :: rest)) = some m
  · obtain ⟨w, m, rfl, hm⟩ := hhit
    obtain ⟨url⟩ := matchHere_url hm
    obtain ⟨hblank, hsplit⟩ := List.cons.inj url.subject
    obtain ⟨htype, _, hparts⟩ := (List.append_cons_inj_of_notMem hcolon hrest).mp hsplit
    have hw : ch ':' ∉ w := fun h => hbefore (List.mem_append_left _ h)
    have hafter : ch ':' ∉ m.after := fun h => hrest (by simp [hparts, h])
    have hurls := embeddedUrls_hit .wiki hw hm hafter
    refine .inr ⟨by simp, url.start, url.last, url.charAfter, m.after, hparts, url.startBytes.2,
      url.lastByte, ?_⟩
    rw [List.append_assoc, List.singleton_append, hurls, url.text, ← htype, ← hblank]
    simp
  · refine .inl ?_
    rw [embeddedUrls_eq]
    refine replaceAll_same fun m hpiece => ?_
    obtain ⟨v, hv, hm⟩ := scan_hit hpiece
    obtain ⟨url⟩ := matchHere_url hm
    refine url.text_unknown hm .wiki fun hknown => hhit ?_
    obtain ⟨⟨w, hw⟩, hparts⟩ := url.parts hv (by simp [hbefore, hcolon]) hrest
    have hsplit : before ++ scheme = (w ++ [url.charBefore]) ++ url.urlType := by simpa using hw
    have hsame : url.urlType = scheme := by
      rcases List.append_eq_append_iff.mp hsplit with ⟨y, _, htype⟩ | ⟨y, hy, htype⟩
      · exact urlTypes_suffix scheme hscheme _ hknown ⟨y, htype.symm⟩
      · -- letters before the scheme would be part of the word before
        rcases hword with rfl | ⟨u, rfl⟩
        · simp at hy
        · rcases List.eq_nil_or_concat y with rfl | ⟨y, b, rfl⟩
          · exact htype
          · rw [List.concat_eq_append, ← List.append_assoc] at hy
            obtain rfl := List.singleton_inj.mp (List.append_inj' hy rfl).2
            exact absurd (url.typeBytes.2 (ch ' ') (by simp [htype])) (by decide)
    rw [hsame] at hsplit
    obtain rfl := List.append_cancel_right hsplit
    have hblank : url.charBefore = ch ' ' := by
      rcases hword with h | ⟨u, hu⟩
      · simp at h
      · exact List.singleton_inj.mp (List.append_inj' hu rfl).2
    refine ⟨w, m, by rw [hblank], ?_⟩
    rw [← hsame, hparts, ← hblank, ← url.subject]
    exact hm

/-! ### Calm text -/

/-- After a blank there is no equals sign and no upper-case letter. -/
def calmAfter (b e : Byte) : Prop := isSpace b = true → e ≠ ch '=' ∧ isUpper e = false

/-- A text in which nothing begins a mark, also where a blank is put around it. -/
def Calm (l : Bytes) : Prop := (ch ' ' :: l).IsChain calmAfter

instance : DecidableRel calmAfter := fun _ _ => inferInstanceAs (Decidable (_ → _))

instance (l : Bytes) : Decidable (Calm l) := inferInstanceAs (Decidable (List.IsChain _ _))

namespace Calm

variable {l l' : Bytes}

theorem append (h : Calm l) (h' : Calm l') : Calm (l ++ l') := by
  refine List.isChain_append.mpr ⟨h, h'.tail, fun x _ y hy => ?_⟩
  intro _
  obtain ⟨t, rfl⟩ := List.head?_eq_some_iff.mp hy
  exact (List.isChain_cons_cons.mp h').1 (by decide)

/-- Without a blank only the first byte counts. -/
theorem of_solid (h : ∀ b ∈ l, isSpace b = false)
    (hhead : ∀ b t, l = b :: t → b ≠ ch '=' ∧ isUpper b = false) : Calm l := by
  refine List.isChain_iff_forall_rel_of_append_cons_cons.mpr fun b e u t hsplit hb => ?_
  cases u with
  | nil =>
    obtain ⟨_, rfl⟩ := List.cons.inj hsplit
    exact hhead e t rfl
  | cons d u =>
    obtain ⟨_, rfl⟩ := List.cons.inj hsplit
    rw [h b (by simp)] at hb
    cases hb

theorem of_bytes (h : ∀ b ∈ l, b ≠ ch '=' ∧ isUpper b = false) : Calm l := by
  refine List.isChain_iff_forall_rel_of_append_cons_cons.mpr fun b e u t hsplit _ => ?_
  have hmem : e ∈ ch ' ' :: l := by
    rw [hsplit]
    simp
  rcases List.mem_cons.mp hmem with rfl | hmem
  · decide
  · exact h e hmem

theorem pair (h : Calm l) {u : Bytes} {b e : Byte} {t : Bytes}
    (hsplit : str " " ++ l ++ str " " = u ++ b :: e :: t) (hb : isSpace b = true) :
    e ≠ ch '=' ∧ isUpper e = false := by
  have hend : Calm (l ++ str " ") := h.append (of_bytes (by decide))
  have heq : ch ' ' :: (l ++ str " ") = u ++ b :: e :: t := by
    rw [← hsplit, List.append_assoc]
    rfl
  exact List.isChain_iff_forall_rel_of_append_cons_cons.mp hend heq hb

end Calm

/-- The bytes of words, of URLs and of the elements around them. -/
def isTextByte (b : Byte) : Bool := isAlnum b || (str " /-.:<>\"=#").contains b

theorem opensMark_iff (b : Byte) :
    singleMatch b (.set false [.cls (ch 's'), .lit (ch '(')]) = true ↔
      isSpace b = true ∨ b = ch '(' := by
  revert b
  refine forall_byte ?_
  decide +kernel

theorem settled_calm {l : Bytes} (noAutoLink : Bool) (hne : l ≠ [])
    (hhead : ∀ b t, l = b :: t → isSpace b = false ∧ b ≠ ch '-' ∧ b ≠ ch '#')
    (hbytes : ∀ b ∈ l, isTextByte b = true) (hcalm : Calm l) :
    Settled noAutoLink l ∧ entities l = l := by
  have hno : ∀ x, isTextByte x = false → x ∉ l := by
    intro x hx hmem
    rw [hbytes x hmem] at hx
    cases hx
  have hpad : ∀ x, isTextByte x = false → x ∉ str " " ++ l ++ str " " := by
    intro x hx hmem
    simp only [List.mem_append, hno x hx, or_false] at hmem
    have hblank : ∀ x ∈ str " ", isTextByte x = true := by decide
    rw [or_self] at hmem
    rw [hblank x hmem] at hx
    cases hx
  have hpair : ∀ {p : Pattern} {c : Single},
      headPair p.items = some (.set false [.cls (ch 's'), .lit (ch '(')], c) →
      (∀ e, e ≠ ch '=' → isUpper e = false → singleMatch e c = false) →
      p.Misses (str " " ++ l ++ str " ") := by
    intro p c hitems hc
    refine .of_pair hitems fun u b e t hsplit hb => ?_
    rcases (opensMark_iff b).mp hb with hspace | rfl
    · obtain ⟨hequals, hupper⟩ := hcalm.pair hsplit hspace
      exact hc e hequals hupper
    · exact absurd (hsplit ▸ by simp) (hpad (ch '(') (by decide))
  have hrules : ∀ rule ∈ emphasisRules, rule.1.needs (ch '*') ∨ rule.1.needs (ch '_') ∨
      headPair rule.1.items =
        some (.set false [.cls (ch 's'), .lit (ch '(')], .lit (ch '=')) := by decide
  refine ⟨⟨⟨hne, hhead, hno _ (by decide), hno _ (by decide)⟩, hno _ (by decide),
    hno _ (by decide), fun rule hrule => ?_, .inr ?_⟩,
    entities_plain (hno _ (by decide)) (hno _ (by decide))⟩
  · rcases hrules rule hrule with h | h | h
    · exact .of_needs h (hpad _ (by decide))
    · exact .of_needs h (hpad _ (by decide))
    · exact hpair h fun e he _ => by simpa [singleMatch] using he.symm
  · refine hpair (c := .cls (ch 'u')) (by decide) fun e _ he => ?_
    rw [singleMatch_upper]
    exact he

/-! ### Bare URLs -/

/-- At least three letters, digits, slashes, dashes and dots: no dot first or last, no dash
last. -/
structure IsAddress (address : Bytes) : Prop where
  length : 3 ≤ address.length
  bytes : ∀ b ∈ address, isAlnum b = true ∨ b ∈ str "/-."
  first : address.head? ≠ some (ch '.')
  last : EndsIn (fun b => isAlnum b || b == ch '/') address

def IsBareUrl (u : Bytes) : Prop :=
  ∃ scheme ∈ urlTypes, ∃ address, u = scheme ++ ch ':' :: address ∧ IsAddress address

/-- Words of lower-case letters and the blanks between them. -/
def LowerWords (s : Bytes) : Prop := ∀ b ∈ s, isLower b = true ∨ b = ch ' '

/-- The words before and after the URL of a line, with the blanks between them. -/
structure UrlLine (before after : Bytes) : Prop where
  beforeBytes : LowerWords before
  first : ∀ b t, before = b :: t → isLower b = true
  beforeEnd : before = [] ∨ ∃ w, before = w ++ [ch ' ']
  afterBytes : LowerWords after
  afterStart : after = [] ∨ ∃ t, after = ch ' ' :: t

/-- The link of a URL. -/
def linked (url : Bytes) : Bytes := str "<A href=\"" ++ url ++ str "\">" ++ url ++ str "</A>"

theorem linked_eq_htk {url : Bytes} (h : ∀ b ∈ url, b ≠ 0) :
    htk "A" [("href", url)] [url] = linked url := by
  have hurl : formatS url = url := by rw [formatS, cString_eq_self h, ite_self]
  have hhref : str "<" ++ str "A" ++ (str " " ++ formatS (str "href") ++ str "=\"") =
      str "<A href=\"" := by decide
  have hend : str "\"" ++ str ">" = str "\">" := by decide
  have hclose : str "</" ++ str "A" ++ str ">" = str "</A>" := by decide
  rw [linked, ← hhref, ← hend, ← hclose]
  simp [htk, attr, hurl]

/-- The bytes of an address, also after `embeddedHtml`. -/
def isSolidByte (b : Byte) : Bool := isAlnum b || (str "/-.<>").contains b

theorem solid_facts (b : Byte) (h : isSolidByte b = true) :
    isTextByte b = true ∧ isSpace b = false ∧ b ≠ ch ':' ∧ b ≠ ch '"' := by
  revert h
  revert b
  refine forall_byte ?_
  decide +kernel

theorem lower_facts (b : Byte) (h : isLower b = true) :
    isTextByte b = true ∧ isSpace b = false ∧ isSolidByte b = true ∧ b ≠ ch '=' ∧
      isUpper b = false ∧ b ≠ ch '-' ∧ b ≠ ch '#' := by
  revert h
  revert b
  refine forall_byte ?_
  decide +kernel

instance (s : Bytes) : Decidable (LowerWords s) :=
  inferInstanceAs (Decidable (∀ b ∈ s, isLower b = true ∨ b = ch ' '))

namespace LowerWords

variable {s : Bytes}

theorem textBytes (h : LowerWords s) : ∀ b ∈ s, isTextByte b = true := by
  intro b hb
  rcases h b hb with hb | rfl
  · exact (lower_facts b hb).1
  · decide

theorem calm (h : LowerWords s) : Calm s := by
  refine .of_bytes fun b hb => ?_
  rcases h b hb with hb | rfl
  · exact ⟨(lower_facts b hb).2.2.2.1, (lower_facts b hb).2.2.2.2.1⟩
  · decide

theorem not_mem (h : LowerWords s) {x : Byte} (hx : isLower x = false) (hblank : x ≠ ch ' ') :
    x ∉ s := by
  intro hmem
  rcases h x hmem with hlower | rfl
  · rw [hx] at hlower
    cases hlower
  · exact hblank rfl

/-- No part of the mark for `<nop>` is in lower-case words. -/
theorem no_nopTOKEN (h : LowerWords s) : gsubStr (pat "nopTOKEN") (str "<nop>") s = s :=
  replaceAll_misses
    (Pattern.Misses.of_needs (x := ch 'T') (by decide) (h.not_mem (by decide) (by decide))) _

end LowerWords

section
variable {before after address : Bytes}

theorem embeddedHtml_url (h : UrlLine before after) (hscheme : scheme ∈ urlTypes)
    (haddress : IsAddress address) :
    embeddedHtml (blockQuote (before ++ (scheme ++ ch ':' :: (address ++ after)))) =
      before ++ (scheme ++ ch ':' ::
        (gsubStr (pat "nopTOKEN") (str "<nop>") address ++ after)) := by
  obtain ⟨_, hlower⟩ := urlTypes_lower scheme hscheme
  have hno : ∀ x, isLower x = false → x ≠ ch ' ' → x ≠ ch ':' → x ∉ address →
      x ∉ before ++ (scheme ++ ch ':' :: (address ++ after)) := by
    intro x hx hblank hcolon haddress
    have hx' : x ∉ scheme := fun hmem => by
      rw [hlower x hmem] at hx
      cases hx
    simp [h.beforeBytes.not_mem hx hblank, h.afterBytes.not_mem hx hblank, hx', haddress, hcolon]
  have hplain : ∀ x, isAlnum x = false → x ∉ str "/-." → x ∉ address := by
    intro x hx hmark hmem
    rcases haddress.bytes x hmem with halnum | hmem
    · rw [hx] at halnum
      cases halnum
    · exact hmark hmem
  have hgt : ch '>' ∉ before ++ (scheme ++ ch ':' :: (address ++ after)) :=
    hno _ (by decide) (by decide) (by decide) (hplain _ (by decide) (by decide))
  have hwords : LowerWords (before ++ scheme) := fun b hb =>
    (List.mem_append.mp hb).elim (h.beforeBytes b) fun hb => .inl (hlower b hb)
  have hafter : gsubStr (pat "nopTOKEN") (str "<nop>") (address ++ after) =
      gsubStr (pat "nopTOKEN") (str "<nop>") address ++ after := by
    rcases h.afterStart with rfl | ⟨t, rfl⟩
    · rw [List.append_nil, List.append_nil]
    · have ht : LowerWords t := fun b hb => h.afterBytes b (List.mem_cons_of_mem _ hb)
      rw [gsubStr_nopTOKEN_split (by decide), ht.no_nopTOKEN]
  rw [blockQuote_plain hgt, embeddedHtml_words
      (hno _ (by decide) (by decide) (by decide) (hplain _ (by decide) (by decide))) hgt
      (hno _ (by decide) (by decide) (by decide) (hplain _ (by decide) (by decide))),
    ← List.append_assoc, gsubStr_nopTOKEN_split (by decide), hwords.no_nopTOKEN, hafter,
    List.append_assoc]

theorem nopTOKEN_solid (haddress : IsAddress address) :
    ∀ b ∈ gsubStr (pat "nopTOKEN") (str "<nop>") address, isSolidByte b = true := by
  rw [nopTOKEN_pattern]
  refine replaceAll_bytes (fun b hb => ?_) fun m _ _ => ?_
  · rcases haddress.bytes b hb with halnum | hmark
    · simp [isSolidByte, halnum]
    · have hmarks : ∀ b ∈ str "/-.", isSolidByte b = true := by decide
      exact hmarks b hmark
  · rw [addS_plain m (by decide)]
    decide

/-- The text with the URL has its first byte in a word. -/
theorem url_head (h : UrlLine before after) (hscheme : scheme ∈ urlTypes) (t : Bytes) :
    ∀ b u, before ++ (scheme ++ t) = b :: u → isLower b = true := by
  intro b u hb
  cases before with
  | nil =>
    obtain ⟨hne, hlower⟩ := urlTypes_lower scheme hscheme
    obtain ⟨d, s, rfl⟩ := List.exists_cons_of_ne_nil hne
    obtain ⟨rfl, _⟩ := List.cons.inj hb
    exact hlower _ (List.mem_cons_self ..)
  | cons d s =>
    obtain ⟨rfl, _⟩ := List.cons.inj hb
    exact h.first _ s rfl

theorem scheme_facts (hscheme : scheme ∈ urlTypes) :
    (∀ b ∈ scheme, isTextByte b = true ∧ isSpace b = false) ∧
      ∀ t b u, scheme ++ t = b :: u → b ≠ ch '=' ∧ isUpper b = false := by
  obtain ⟨hne, hlower⟩ := urlTypes_lower scheme hscheme
  refine ⟨fun b hb => ?_, fun t b u hsplit => ?_⟩
  · exact ⟨(lower_facts b (hlower b hb)).1, (lower_facts b (hlower b hb)).2.1⟩
  · obtain ⟨d, s, rfl⟩ := List.exists_cons_of_ne_nil hne
    obtain ⟨rfl, _⟩ := List.cons.inj hsplit
    have hfacts := lower_facts d (hlower d (List.mem_cons_self ..))
    exact ⟨hfacts.2.2.2.1, hfacts.2.2.2.2.1⟩

theorem calm_url (hscheme : scheme ∈ urlTypes) (hsolid : ∀ b ∈ address, isSpace b = false) :
    Calm (scheme ++ ch ':' :: address) := by
  obtain ⟨hbytes, hhead⟩ := scheme_facts hscheme
  refine .of_solid (fun b hb => ?_) fun b t hb => hhead _ b t hb
  simp only [List.mem_append, List.mem_cons] at hb
  rcases hb with hb | rfl | hb
  · exact (hbytes b hb).2
  · decide
  · exact hsolid b hb

theorem settled_line (h : UrlLine before after) {t : Bytes}
    (hbytes : ∀ b ∈ t, isTextByte b = true)
    (hhead : ∀ b u, t = b :: u → isLower b = true ∨ b = ch '<')
    (hne : t ≠ []) (hcalm : Calm t) (noAutoLink : Bool) :
    Settled noAutoLink (before ++ t) ∧ entities (before ++ t) = before ++ t := by
  refine settled_calm noAutoLink (by simp [hne]) (fun b u hb => ?_) (fun b hb => ?_)
    (h.beforeBytes.calm.append hcalm)
  · have hfirst : isLower b = true ∨ b = ch '<' := by
      cases before with
      | nil => exact hhead b u hb
      | cons d s =>
        obtain ⟨rfl, _⟩ := List.cons.inj hb
        exact .inl (h.first _ s rfl)
    rcases hfirst with hlower | rfl
    · have hfacts := lower_facts b hlower
      exact ⟨hfacts.2.1, hfacts.2.2.2.2.2⟩
    · decide
  · exact (List.mem_append.mp hb).elim (h.beforeBytes.textBytes b) (hbytes b)

/-- The line is settled without the link. -/
theorem settled_url (h : UrlLine before after) (hscheme : scheme ∈ urlTypes)
    (hsolid : ∀ b ∈ address, isSolidByte b = true) (noAutoLink : Bool) :
    Settled noAutoLink (before ++ (scheme ++ ch ':' :: (address ++ after))) ∧
      entities (before ++ (scheme ++ ch ':' :: (address ++ after))) =
        before ++ (scheme ++ ch ':' :: (address ++ after)) := by
  have hcalm : Calm (scheme ++ ch ':' :: address) :=
    calm_url hscheme fun b hb => (solid_facts b (hsolid b hb)).2.1
  have hsplit : scheme ++ ch ':' :: (address ++ after) =
      (scheme ++ ch ':' :: address) ++ after := by
    simp
  obtain ⟨hbytes, hhead⟩ := scheme_facts hscheme
  refine settled_line h (fun b hb => ?_) (fun b u hb => .inl ?_) (by simp) ?_ noAutoLink
  · simp only [List.mem_append, List.mem_cons] at hb
    rcases hb with hb | rfl | hb | hb
    · exact (hbytes b hb).1
    · decide
    · exact (solid_facts b (hsolid b hb)).1
    · exact h.afterBytes.textBytes b hb
  · obtain ⟨hne, hlower⟩ := urlTypes_lower scheme hscheme
    obtain ⟨d, s, rfl⟩ := List.exists_cons_of_ne_nil hne
    obtain ⟨rfl, _⟩ := List.cons.inj hb
    exact hlower _ (List.mem_cons_self ..)
  · rw [hsplit]
    exact hcalm.append h.afterBytes.calm

/-- The line is settled with the link of a part of the URL. -/
theorem settled_linked {tail : Bytes} {charAfter : Byte} (h : UrlLine before after)
    (hscheme : scheme ∈ urlTypes) (hsolid : ∀ b ∈ address, isSolidByte b = true)
    (hsplit : address ++ after = start ++ last :: charAfter :: tail)
    (hstart : ∀ b ∈ start ++ [last], isSpace b = false) (noAutoLink : Bool) :
    Settled noAutoLink
        (before ++ (linked (scheme ++ ch ':' :: (start ++ [last])) ++ charAfter :: tail)) ∧
      entities (before ++ (linked (scheme ++ ch ':' :: (start ++ [last])) ++ charAfter :: tail)) =
        before ++ (linked (scheme ++ ch ':' :: (start ++ [last])) ++ charAfter :: tail) := by
  have hrest : ∀ b ∈ start ++ last :: charAfter :: tail, isTextByte b = true := by
    intro b hb
    rw [← hsplit] at hb
    rcases List.mem_append.mp hb with hb | hb
    · exact (solid_facts b (hsolid b hb)).1
    · exact h.afterBytes.textBytes b hb
  have hurl : ∀ b ∈ scheme ++ ch ':' :: (start ++ [last]), isTextByte b = true := by
    intro b hb
    simp only [List.mem_append, List.mem_cons, List.not_mem_nil, or_false] at hb
    rcases hb with hb | rfl | hb | rfl
    · exact ((scheme_facts hscheme).1 b hb).1
    · decide
    · exact hrest b (by simp [hb])
    · exact hrest b (by simp)
  have hcalm := calm_url hscheme hstart
  -- after the closing tag goes what follows in the text
  have htail : Calm (str "</A>" ++ charAfter :: tail) := by
    have hchain : Calm (scheme ++ ch ':' :: (address ++ after)) := by
      have happ := (calm_url hscheme fun b hb => (solid_facts b (hsolid b hb)).2.1).append
        h.afterBytes.calm
      simpa using happ
    have hsuffix : charAfter :: tail <:+ ch ' ' :: (scheme ++ ch ':' :: (address ++ after)) :=
      ⟨ch ' ' :: (scheme ++ ch ':' :: (start ++ [last])), by simp [hsplit]⟩
    have hclose : Calm (str "</A>") := by decide +kernel
    have hlast : (ch ' ' :: str "</A>").getLast? = some (ch '>') := by decide
    refine List.isChain_append.mpr ⟨hclose, hchain.suffix hsuffix, fun x hx y _ hspace => ?_⟩
    rw [hlast] at hx
    obtain rfl := Option.some.inj hx
    cases hspace
  have hopen : Calm (str "<A href=\"") := by decide +kernel
  have hmid : Calm (str "\">") := by decide +kernel
  generalize scheme ++ ch ':' :: (start ++ [last]) = url at hurl hcalm ⊢
  have hlinked : linked url ++ charAfter :: tail =
      str "<A href=\"" ++ (url ++ (str "\">" ++ (url ++ (str "</A>" ++ charAfter :: tail)))) := by
    simp [linked]
  rw [hlinked]
  refine settled_line h (fun b hb => ?_) (fun b u hb => ?_) ?_ ?_ noAutoLink
  · have hmarks : ∀ b ∈ str "<A href=\"" ++ str "\">" ++ str "</A>", isTextByte b = true := by
      decide
    rw [List.mem_append, List.mem_append, List.mem_append, List.mem_append] at hb
    rcases hb with hb | hb | hb | hb | hb
    · exact hmarks b (by simp [hb])
    · exact hurl b hb
    · exact hmarks b (by simp [hb])
    · exact hurl b hb
    · rcases List.mem_append.mp hb with hb | hb
      · exact hmarks b (by simp [hb])
      · exact hrest b (List.mem_append_right start (List.mem_cons_of_mem _ hb))
  · exact .inr (List.cons.inj hb).1.symm
  · exact List.cons_ne_nil _ _
  · exact hopen.append (hcalm.append (hmid.append (hcalm.append htail)))

theorem processUrl_known (hscheme : scheme ∈ urlTypes) (h : ∀ b ∈ address, b ≠ 0) :
    processUrl .wiki scheme address = linked (scheme ++ ch ':' :: address) := by
  have hurl : scheme ++ str ":" ++ address = scheme ++ ch ':' :: address := by
    simp [show str ":" = [ch ':'] by decide]
  have hzero : ∀ b ∈ scheme ++ ch ':' :: address, b ≠ 0 := by
    intro b hb
    simp only [List.mem_append, List.mem_cons] at hb
    rcases hb with hb | rfl | hb
    · exact ne_of_test ((urlTypes_lower scheme hscheme).2 b hb) (by decide)
    · decide
    · exact h b hb
  rw [← linked_eq_htk hzero]
  simp only [processUrl, hscheme, hurl, ↓reduceIte]

/-- The bytes of a part of the URL that is linked. -/
theorem part_bytes (hstart : ∀ b ∈ start, singleMatch b urlByte = true)
    (hlast : singleMatch last urlLast = true) : ∀ b ∈ start ++ [last], isSpace b = false := by
  have hbytes : ∀ b, singleMatch b urlByte = true ∨ singleMatch b urlLast = true →
      isSpace b = false := by
    refine forall_byte ?_
    decide +kernel
  intro b hb
  rcases List.mem_append.mp hb with hb | hb
  · exact hbytes b (.inl (hstart b hb))
  · obtain rfl := List.mem_singleton.mp hb
    exact hbytes b (.inr hlast)

/-- The link of the whole URL is in the text only if the URL was not cut. -/
theorem linked_inj {url url' tail tail' : Bytes} (h : ch '"' ∉ url) (h' : ch '"' ∉ url')
    (heq : linked url ++ tail = linked url' ++ tail') : url = url' ∧ tail = tail' := by
  simp only [linked, List.append_assoc] at heq
  have hquote := List.append_cancel_left heq
  rw [show str "\">" = ch '"' :: str ">" by decide] at hquote
  obtain ⟨rfl, hrest⟩ := append_mark_inj h h' hquote
  exact ⟨rfl, by simpa using hrest⟩

/-- No byte of the line is new to the words and the URL. -/
theorem url_line_bytes (h : UrlLine before after) (hscheme : scheme ∈ urlTypes)
    (hsolid : ∀ b ∈ address, isSolidByte b = true) :
    ∀ b ∈ before ++ (scheme ++ ch ':' :: (address ++ after)),
      isSolidByte b = true ∨ b = ch ' ' ∨ b = ch ':' := by
  have hlower : ∀ b, isLower b = true ∨ b = ch ' ' →
      isSolidByte b = true ∨ b = ch ' ' ∨ b = ch ':' := by
    rintro b (hb | rfl)
    · exact .inl (lower_facts b hb).2.2.1
    · exact .inr (.inl rfl)
  intro b hb
  simp only [List.mem_append, List.mem_cons] at hb
  rcases hb with hb | hb | rfl | hb | hb
  · exact hlower b (h.beforeBytes b hb)
  · exact .inl (lower_facts b ((urlTypes_lower scheme hscheme).2 b hb)).2.2.1
  · exact .inr (.inr rfl)
  · exact .inl (hsolid b hb)
  · exact hlower b (h.afterBytes b hb)

theorem address_plain (haddress : IsAddress address) :
    ∀ b ∈ address, singleMatch b urlByte = true ∧ isSpace b = false ∧ b ≠ 0 := by
  have hfacts : ∀ b, isAlnum b = true ∨ b ∈ str "/-." →
      singleMatch b urlByte = true ∧ isSpace b = false ∧ b ≠ 0 := by
    refine forall_byte ?_
    decide +kernel
  exact fun b hb => hfacts b (haddress.bytes b hb)

theorem address_last (b : Byte) (hb : (isAlnum b || b == ch '/') = true) :
    singleMatch b urlLast = true := by
  revert hb
  revert b
  refine forall_byte ?_
  decide +kernel

theorem address_quote (hscheme : scheme ∈ urlTypes) (haddress : IsAddress address) :
    ch '"' ∉ scheme ++ ch ':' :: address := by
  intro hb
  rcases List.mem_append.mp hb with hb | hb
  · exact absurd ((urlTypes_lower scheme hscheme).2 _ hb) (by decide)
  · rcases List.mem_cons.mp hb with hb | hb
    · exact absurd hb (by decide)
    · exact absurd (haddress.bytes _ hb) (by decide)

/-- The address stays as it is when it does not hold the mark for `<nop>`. -/
theorem nopTOKEN_iff (hscheme : scheme ∈ urlTypes) (haddress : IsAddress address) :
    ¬ str "nopTOKEN" <:+: scheme ++ ch ':' :: address ↔
      gsubStr (pat "nopTOKEN") (str "<nop>") address = address := by
  have hT : ch 'T' ∉ scheme := fun hmem =>
    absurd ((urlTypes_lower scheme hscheme).2 _ hmem) (by decide)
  rw [nopTOKEN_pattern]
  constructor
  · intro hno
    refine replaceAll_misses (.of_absent fun hwithin => hno ?_) _
    exact hwithin.trans ⟨scheme ++ [ch ':'], [], by simp⟩
  · intro hsame hwithin
    rcases infix_split (by decide) hwithin with hwithin | hwithin
    · exact hT (hwithin.subset (by decide))
    · have hlt : ch '<' ∈ gsubStr ⟨false, literalItems (str "nopTOKEN")⟩ (str "<nop>") address :=
        gsubStr_literal_mem (by decide) (by decide) hwithin
      rw [hsame] at hlt
      rcases haddress.bytes _ hlt with hlt | hlt
      · cases hlt
      · exact absurd hlt (by decide)

/-- The whole URL is linked only if there is text around it and `embeddedHtml` has left it. -/
theorem around_of_linked {address' : Bytes} {env : FormatterEnv} {st : FormatterState}
    (hcls : env.cls = .wiki) (h : UrlLine before after) (hscheme : scheme ∈ urlTypes)
    (haddress : IsAddress address) (hsolid : ∀ b ∈ address', isSolidByte b = true)
    (hhtml : embeddedHtml (blockQuote (before ++ (scheme ++ ch ':' :: (address ++ after)))) =
      before ++ (scheme ++ ch ':' :: (address' ++ after)))
    (hout : (formatWikiLine env (before ++ (scheme ++ ch ':' :: (address ++ after))) st).1 =
      str " " ++ (before ++ linked (scheme ++ ch ':' :: address) ++ after) ++ str " ") :
    before ≠ [] ∧ after ≠ [] ∧ address' = address := by
  have hbefore : ch ':' ∉ before := h.beforeBytes.not_mem (by decide) (by decide)
  have hafter : ch ':' ∉ after := h.afterBytes.not_mem (by decide) (by decide)
  have hbytes := url_line_bytes h hscheme hsolid
  have hrest : ch ':' ∉ address' ++ after := by
    rw [List.mem_append, not_or]
    exact ⟨fun hmem => (solid_facts _ (hsolid _ hmem)).2.2.1 rfl, hafter⟩
  rcases embeddedUrls_one hscheme hbefore h.beforeEnd hrest with
    hsame | ⟨hne, start, last, charAfter, tail, hparts, hstart, hlast, hlink⟩
  · obtain ⟨hsettled, hentities⟩ := settled_url h hscheme hsolid st.insideNoAutoLink
    rw [formatWikiLine_settled hsettled (by rw [hhtml, hcls, hsame, hentities])] at hout
    have htext := List.append_cancel_left (List.append_cancel_right hout)
    -- no link has been made
    have hquote : ch '"' ∈ before ++ linked (scheme ++ ch ':' :: address) ++ after := by
      simp [linked, show ch '"' ∈ str "<A href=\"" by decide]
    rw [← htext] at hquote
    exact absurd (hbytes _ hquote) (by decide)
  · have hpart := part_bytes hstart hlast
    have hmem : ∀ b ∈ scheme ++ ch ':' :: (start ++ [last]),
        isSolidByte b = true ∨ b = ch ' ' ∨ b = ch ':' := by
      intro b hb
      refine hbytes b ?_
      rw [hparts]
      simp only [List.mem_append, List.mem_cons, List.not_mem_nil, or_false] at hb ⊢
      rcases hb with hb | hb | hb | hb
      · exact .inr (.inl hb)
      · exact .inr (.inr (.inl hb))
      · exact .inr (.inr (.inr (.inl hb)))
      · exact .inr (.inr (.inr (.inr (.inl hb))))
    have hzero : ∀ b ∈ start ++ [last], b ≠ 0 := by
      rintro b hb rfl
      exact absurd (hmem 0 (List.mem_append_right _ (List.mem_cons_of_mem _ hb))) (by decide)
    have hquote : ch '"' ∉ scheme ++ ch ':' :: (start ++ [last]) := fun hb =>
      absurd (hmem _ hb) (by decide)
    obtain ⟨hsettled, hentities⟩ :=
      settled_linked h hscheme hsolid hparts hpart st.insideNoAutoLink
    rw [processUrl_known hscheme hzero] at hlink
    rw [formatWikiLine_settled hsettled (by rw [hhtml, hcls, hlink, hentities])] at hout
    have htext := List.append_cancel_left (List.append_cancel_right hout)
    rw [List.append_assoc] at htext
    obtain ⟨hurl, htail⟩ := linked_inj hquote (address_quote hscheme haddress)
      (List.append_cancel_left htext)
    have haddr := (List.cons.inj (List.append_cancel_left hurl)).2
    have hsame : address' ++ after = address ++ after := by
      rw [hparts, ← haddr, ← htail]
      simp
    exact ⟨hne, htail ▸ List.cons_ne_nil _ _, List.append_cancel_right hsame⟩

/-- With text around it the whole URL is linked. -/
theorem linked_of_around {t : Bytes} {env : FormatterEnv} (st : FormatterState)
    (hcls : env.cls = .wiki) (h : UrlLine (before ++ [ch ' ']) (ch ' ' :: t))
    (hscheme : scheme ∈ urlTypes) (haddress : IsAddress address)
    (hnop : gsubStr (pat "nopTOKEN") (str "<nop>") address = address) :
    (formatWikiLine env
        (before ++ [ch ' '] ++ (scheme ++ ch ':' :: (address ++ ch ' ' :: t))) st).1 =
      str " " ++ (before ++ [ch ' '] ++ linked (scheme ++ ch ':' :: address) ++ ch ' ' :: t) ++
        str " " := by
  have hhtml := embeddedHtml_url h hscheme haddress
  have hsolid := nopTOKEN_solid haddress
  rw [hnop] at hhtml hsolid
  obtain ⟨start, last, rfl, hlast⟩ := haddress.last
  have hstart : start ≠ [] := by
    rintro rfl
    exact absurd haddress.length (by simp)
  have hplain := address_plain haddress
  have hscheme' := urlTypes_lower scheme hscheme
  have hbefore : ch ':' ∉ before := fun hmem =>
    h.beforeBytes.not_mem (x := ch ':') (by decide) (by decide) (List.mem_append_left _ hmem)
  have hafter : ch ':' ∉ t := fun hmem =>
    h.afterBytes.not_mem (x := ch ':') (by decide) (by decide) (List.mem_cons_of_mem _ hmem)
  have hm := matchHere_url_hit (t := t) hscheme'.1
    (fun b hb => isAlnum_of_isLower (hscheme'.2 b hb)) hstart
    (fun b hb => (hplain b (by simp [hb])).1) (address_last last hlast)
  have htext : urlText .wiki ⟨ch ' ' :: (scheme ++ ch ':' :: (start ++ [last, ch ' '])),
      [[ch ' '], scheme, start ++ [last], [ch ' ']], t⟩ =
        ch ' ' :: (linked (scheme ++ ch ':' :: (start ++ [last])) ++ [ch ' ']) := by
    rw [← processUrl_known hscheme fun b hb => (hplain b hb).2.2]
    simp [urlText]
  have hsubject : before ++ [ch ' '] ++ (scheme ++ ch ':' :: (start ++ [last] ++ ch ' ' :: t)) =
      before ++ ch ' ' :: (scheme ++ ch ':' :: (start ++ last :: ch ' ' :: t)) := by simp
  have hurls : embeddedUrls .wiki (before ++ [ch ' '] ++ (scheme ++ ch ':' ::
      (start ++ [last] ++ ch ' ' :: t))) =
        before ++ [ch ' '] ++
          (linked (scheme ++ ch ':' :: (start ++ [last])) ++ ch ' ' :: t) := by
    rw [hsubject, embeddedUrls_hit .wiki hbefore hm hafter, htext]
    simp
  have hsplit : start ++ [last] ++ ch ' ' :: t = start ++ last :: ch ' ' :: t := by simp
  obtain ⟨hsettled, hentities⟩ := settled_linked h hscheme hsolid hsplit
    (fun b hb => (hplain b hb).2.1) st.insideNoAutoLink
  rw [formatWikiLine_settled hsettled (by rw [hhtml, hcls, hurls, hentities])]
  simp

end

/-- A URL is linked as a whole exactly when there is text before it and after it, and it does not
hold the mark that stands for `<nop>`. -/
theorem bareUrl_linked_iff {u before after : Bytes} (hu : IsBareUrl u) (h : UrlLine before after)
    {env : FormatterEnv} (hcls : env.cls = .wiki) (st : FormatterState) :
    (formatWikiLine env (before ++ u ++ after) st).1 =
        str " " ++ (before ++ linked u ++ after) ++ str " " ↔
      before ≠ [] ∧ after ≠ [] ∧ ¬ str "nopTOKEN" <:+: u := by
  obtain ⟨scheme, hscheme, address, rfl, haddress⟩ := hu
  have hline : before ++ (scheme ++ ch ':' :: address) ++ after =
      before ++ (scheme ++ ch ':' :: (address ++ after)) := by simp
  rw [hline, nopTOKEN_iff hscheme haddress]
  constructor
  · exact around_of_linked hcls h hscheme haddress (nopTOKEN_solid haddress)
      (embeddedHtml_url h hscheme haddress)
  · rintro ⟨hne, hne', hnop⟩
    obtain ⟨w, rfl⟩ := h.beforeEnd.resolve_left hne
    obtain ⟨t, rfl⟩ := h.afterStart.resolve_left hne'
    exact linked_of_around st hcls h hscheme haddress hnop

theorem bareUrl_linked_see :
    (formatWikiLine (emptyEnv .wiki) (str "see http://a.b now") {}).1 =
      str " see <A href=\"http://a.b\">http://a.b</A> now " := by
  have hurl : IsBareUrl (str "http://a.b") :=
    ⟨str "http", by decide, str "//a.b", by decide,
      ⟨by decide, by decide, by decide, str "//a.", ch 'b', by decide, by decide⟩⟩
  have hline : UrlLine (str "see ") (str " now") := by
    refine ⟨?_, fun b t hb => ?_, .inr ⟨str "see", by decide⟩, ?_, .inr ⟨str "now", by decide⟩⟩
    · decide
    · obtain ⟨rfl, _⟩ := List.cons.inj hb
      decide
    · decide
  have hnop : ¬ str "nopTOKEN" <:+: str "http://a.b" := by decide +kernel
  have hcls : (emptyEnv .wiki).cls = .wiki := rfl
  have hlinked := (bareUrl_linked_iff hurl hline hcls {}).mpr ⟨by decide, by decide, hnop⟩
  exact hlinked

/-- Of a URL at the end of a line the last byte is left out of the link. -/
theorem bareUrl_last_cut :
    IsBareUrl (str "http://abc") ∧ UrlLine (str "see ") [] ∧
      (formatWikiLine (emptyEnv .wiki) (str "see http://abc") {}).1 =
        str " see <A href=\"http://ab\">http://ab</A>c " ∧
      (formatWikiLine (emptyEnv .wiki) (str "see http://abc") {}).1 ≠
        str " " ++ (str "see " ++ linked (str "http://abc") ++ []) ++ str " " := by
  refine ⟨⟨str "http", by decide, str "//abc", by decide,
    ⟨by decide, by decide, by decide, str "//ab", ch 'c', by decide, by decide⟩⟩, ?_, ?_⟩
  · refine ⟨by decide, fun b t hb => ?_, .inr ⟨str "see", by decide⟩, by decide, .inl rfl⟩
    obtain ⟨rfl, _⟩ := List.cons.inj hb
    decide
  · decide +kernel

end MoonWiki
