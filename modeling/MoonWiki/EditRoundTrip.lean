import MoonWiki.FormDecoding
import MoonWiki.SavePage

/-! Editing a page and saving it without a change. -/
namespace MoonWiki
open Lua

/-! ### Escaping -/

def escapeByte (b : Byte) : Bytes :=
  if b = ch '&' then str "&amp;"
  else if b = ch '<' then str "&lt;"
  else if b = ch '>' then str "&gt;"
  else [b]

/-- The three substitutions together escape byte by byte. -/
theorem escapeHtml_eq (content : Bytes) : escapeHtml content = content.flatMap escapeByte := by
  have hamp : pat "&" = ⟨false, [.single (.lit (ch '&')) .one]⟩ := by decide
  have hlt : pat "<" = ⟨false, [.single (.lit (ch '<')) .one]⟩ := by decide
  have hgt : pat ">" = ⟨false, [.single (.lit (ch '>')) .one]⟩ := by decide
  rw [escapeHtml, hamp, hlt, hgt, gsubStr_single _ (by decide), gsubStr_single _ (by decide),
    gsubStr_single _ (by decide)]
  simp only [List.flatMap_assoc]
  congr 1
  funext b
  exact forall_byte (P := fun b =>
    ((if singleMatch b (.lit (ch '&')) then str "&amp;" else [b]).flatMap fun c =>
      (if singleMatch c (.lit (ch '<')) then str "&lt;" else [c]).flatMap fun d =>
        if singleMatch d (.lit (ch '>')) then str "&gt;" else [d]) = escapeByte b)
    (by decide +kernel) b

theorem lt_not_mem_escapeHtml (content : Bytes) : ch '<' ∉ escapeHtml content := by
  rw [escapeHtml_eq]
  intro h
  obtain ⟨b, _, hb⟩ := List.mem_flatMap.mp h
  revert hb
  exact forall_byte (P := fun b => ch '<' ∉ escapeByte b) (by decide +kernel) b

/-- The entities a browser decodes in the text of the element, each once. -/
def decodeEntities : Bytes → Bytes
  | [] => []
  | 38 :: 97 :: 109 :: 112 :: 59 :: s => 38 :: decodeEntities s
  | 38 :: 108 :: 116 :: 59 :: s => 60 :: decodeEntities s
  | 38 :: 103 :: 116 :: 59 :: s => 62 :: decodeEntities s
  | b :: s => b :: decodeEntities s

theorem decodeEntities_cons {b : Byte} (hb : b ≠ 38) (s : Bytes) :
    decodeEntities (b :: s) = b :: decodeEntities s := by
  rw [decodeEntities.eq_def]
  split <;> simp_all

theorem decodeEntities_escapeByte (b : Byte) (s : Bytes) :
    decodeEntities (escapeByte b ++ s) = b :: decodeEntities s := by
  by_cases hamp : b = ch '&'
  · subst hamp; rfl
  · by_cases hlt : b = ch '<'
    · subst hlt; rfl
    · by_cases hgt : b = ch '>'
      · subst hgt; rfl
      · rw [escapeByte, if_neg hamp, if_neg hlt, if_neg hgt]
        exact decodeEntities_cons hamp s

theorem decodeEntities_escapeHtml (content : Bytes) :
    decodeEntities (escapeHtml content) = content := by
  rw [escapeHtml_eq]
  induction content with
  | nil => rfl
  | cons b content ih => rw [List.flatMap_cons, decodeEntities_escapeByte, ih]

/-! ### The edit page -/

theorem infix_htk {field : String} {attrs : List (String × Bytes)} {contain : List Bytes}
    {x : Bytes} (hx : x ∈ contain) : x <:+: htk field attrs contain := by
  obtain ⟨u, v, rfl⟩ := List.append_of_mem hx
  have hflat : x <:+: (u ++ x :: v).flatten := ⟨u.flatten, v.flatten, by simp⟩
  exact hflat.trans ⟨_, _, rfl⟩

theorem textArea_infix_editPage (cls : FormatterClass) (pageName content : Bytes) :
    textArea (escapeHtml content) <:+: editPageHtml cls pageName content := by
  have second {x y : Bytes} {l : List Bytes} : y ∈ x :: y :: l := by simp
  -- from the document inwards: body, division, form, quote
  refine List.IsInfix.trans ?_ (infix_htk second)
  refine List.IsInfix.trans ?_ (infix_htk (List.mem_singleton_self _))
  refine List.IsInfix.trans ?_ (infix_htk (List.mem_singleton_self _))
  refine List.IsInfix.trans ?_ (infix_htk second)
  exact infix_htk (List.mem_singleton_self _)

/-- The start tag of the text area. -/
def textAreaTag : Bytes := str "<TEXTAREA name=\"text\" wrap=\"virtual\" rows=\"30\">"

theorem textArea_start : str "<" ++ str "TEXTAREA" ++
    ([("name", str "text"), ("wrap", str "virtual"), ("rows", str "30")].flatMap
      fun (i, v) => attr i v) ++ str ">" = textAreaTag := by decide

theorem textArea_eq (t : Bytes) : textArea t = textAreaTag ++ t ++ str "</TEXTAREA>" := by
  have hend : str "</" ++ str "TEXTAREA" ++ str ">" = str "</TEXTAREA>" := by decide
  rw [textArea, htk, textArea_start, if_pos (by simp), hend, List.flatten_singleton]

theorem createSpecialEditPage_some {s : State} {title : Bytes} (hv : isValidTitle title)
    (hpage : s.request.parameters.get (str "page") = some title) :
    createSpecialEditPage s =
      (.ok (some (editPageHtml s.formatter title ((WikiStore.loadPage s.disk title).getD []))),
        { s with opened := s.opened ++ [(.read, pagePath title)] }) := by
  simp [createSpecialEditPage, Run.bind_apply, hpage, hv, loadPage, WikiStore.loadPage]

/-! ### The round trip -/

/-- A browser sends each LF as CR LF. -/
def crlf (text : Bytes) : Bytes := text.flatMap fun b => if b = 10 then [13, 10] else [b]

theorem withoutCR_crlf {text : Bytes} (h : 13 ∉ text) : withoutCR (crlf text) = text := by
  induction text with
  | nil => rfl
  | cons b text ih =>
    have hb : b ≠ 13 := fun hb => h (by simp [hb])
    have ih' := ih fun ht => h (by simp [ht])
    rw [crlf, List.flatMap_cons, withoutCR, List.filter_append]
    by_cases hlf : b = 10
    · subst hlf
      exact congrArg (10 :: ·) ih'
    · rw [if_neg hlf, List.filter_cons_of_pos (by simpa using hb)]
      exact congrArg (b :: ·) ih'

/-- The text area of the edit page holds no tag and decodes to the stored text; sent back as
the field `text`, it is stored again. -/
theorem edit_then_save {s : State} {title c : Bytes} (hv : isValidTitle title) (hc : 13 ∉ c)
    (hpage : s.request.parameters.get (str "page") = some title)
    (hstored : WikiStore.loadPage s.disk title = some c) :
    ∃ html s₁ t, createSpecialEditPage s = (.ok (some html), s₁) ∧
      textAreaTag ++ t ++ str "</TEXTAREA>" <:+: html ∧
      ch '<' ∉ t ∧ decodeEntities t = c ∧
      ∀ (q : State) (fields : List (Bytes × Bytes)) (k : Nat),
        FieldNames fields → Posted q fields →
        fields.lookup (str "text") = some (crlf (decodeEntities t)) →
        fields.lookup (str "page") = some title →
        q.disk.writing = .accepts k → c.length ≤ k →
        ∃ q', (readBody >>= fun _ => doSaveAfterEditing) q = (.ok true, q') ∧
          WikiStore.loadPage q'.disk title = some c := by
  refine ⟨_, _, escapeHtml c, createSpecialEditPage_some hv hpage, ?_,
    lt_not_mem_escapeHtml c, decodeEntities_escapeHtml c, ?_⟩
  · rw [hstored, ← textArea_eq]
    exact textArea_infix_editPage _ _ _
  · intro q fields k hf hp htext hname hk hlen
    rw [decodeEntities_escapeHtml] at htext
    have hwhole : (withoutCR (crlf c)).length ≤ k := by rwa [withoutCR_crlf hc]
    have ht : (q.withForm fields).request.form.get (str "text") = some (crlf c) := by
      rw [← htext]
      exact setFields_empty_get hf.distinct _
    have hn : (q.withForm fields).request.form.get (str "page") = some title := by
      rw [← hname]
      exact setFields_empty_get hf.distinct _
    have hsaved := (savesHonestly_of_whole hk hwhole : SavesHonestly q.disk title (crlf c)).saved
    rw [withoutCR_crlf hc] at hsaved
    have hone : (WikiStore.savePage q.disk title (crlf c)).1 = true := by rw [savePage_accepts hk]
    refine ⟨(q.withForm fields).saved title (crlf c), ?_, hsaved hone⟩
    rw [Run.bind_ok (readBody_posted hf hp), doSaveAfterEditing_some ht hn]
    exact if_pos hone

/-- The page `FooBar` holds `a<b&c` and a line end. -/
theorem edit_then_save_foo :
    let c := str "a<b&c\n"
    let body := str "page=FooBar&text=a%3Cb%26c%0D%0A"
    let disk : Disk := { Disk.empty with files := fun _ => some c }
    let s : State := { State.fresh with
      disk, request := { parameters := Table.empty.set (str "page") (str "FooBar") } }
    let q : State := { State.fresh with
      disk
      request := {
        postData := body, options := Table.empty.set (str "content-length") (str "32") } }
    ∃ html s₁ t, createSpecialEditPage s = (.ok (some html), s₁) ∧
      textAreaTag ++ t ++ str "</TEXTAREA>" <:+: html ∧
      ch '<' ∉ t ∧ decodeEntities t = c ∧
      ∃ q', (readBody >>= fun _ => doSaveAfterEditing) q = (.ok true, q') ∧
        WikiStore.loadPage q'.disk (str "FooBar") = some c := by
  intro c body disk s q
  obtain ⟨html, s₁, t, hedit, harea, hlt, hdecode, hsave⟩ :=
    @edit_then_save s (str "FooBar") c (by decide) (by decide)
      (Table.get_set_self _ _ _) rfl
  refine ⟨html, s₁, t, hedit, harea, hlt, hdecode, ?_⟩
  rw [hdecode] at hsave
  refine hsave q [(str "page", str "FooBar"), (str "text", crlf c)] (2 ^ 32)
    ⟨by decide, by decide, by decide⟩
    ⟨by decide, rfl, str "32", by decide, by decide, by decide,
      by decide⟩
    (by decide) (by decide) rfl (by decide)

end MoonWiki
