import MoonWiki.BlockQuotes
import MoonWiki.Lua.Infixes

/-! The mark that the last line of a page is given, and what becomes of it. -/
namespace MoonWiki
open Lua

variable {w line : Bytes}

/-! ### Embedded HTML -/

/-- The line of the mark as a block quote or not: the text before the mark has no bracket but that of
a tag at its start. -/
def MarkedLine (s : Bytes) : Prop :=
  ∃ tag text after, s = tag ++ (text ++ (str "<nop>" ++ after)) ∧ ch '<' ∉ text ∧
    (tag = [] ∨ tag = str "<C") ∧ (after = [] ∨ after = str "</CITE><BR>")

theorem markedLine_blockQuote (hw : ch '<' ∉ w) : MarkedLine (blockQuote (w ++ str "<nop>")) := by
  cases w with
  | nil => exact ⟨[], [], [], by decide, by simp, .inl rfl, .inl rfl⟩
  | cons b w =>
    by_cases hb : b = ch '>'
    · subst hb
      refine ⟨str "<C", str "ITE>" ++ w, str "</CITE><BR>", ?_, ?_, .inr rfl, .inr rfl⟩
      · rw [List.cons_append, blockQuote_eq]
        simp only [← List.append_assoc]
        rfl
      · intro hmem
        rcases List.mem_append.mp hmem with hmem | hmem
        · exact absurd hmem (by decide)
        · exact hw (List.mem_cons_of_mem _ hmem)
    · refine ⟨[], b :: w, [], ?_, hw, .inl rfl, .inl rfl⟩
      refine replaceAll_misses (Pattern.Misses.of_head rfl (c := .lit (ch '>')) (by decide) ?_) _
      intro d t ht
      obtain ⟨rfl, _⟩ := List.cons.inj ht
      exact beq_false_of_ne (Ne.symm hb)

/-- The steps for comments and for runs of brackets, which leave the mark. -/
theorem markedLine_runs {s : Bytes} (h : MarkedLine s) :
    str "<nop>" <:+:
      gsubStr (pat "(>>+)") (rep (str "&gt;") (str "%1").length)
        (gsubStr (pat "(<<+)") (rep (str "&lt;") (str "%1").length)
          (gsubStr (pat "%-%->") (str "--" ++ transToken)
            (gsubStr (pat "<!%-%-") (transToken ++ str "!--") s))) := by
  obtain ⟨tag, text, after, rfl, htext, htag, hafter⟩ := h
  have hopens : ¬ str "<!--" <:+: tag ++ (text ++ (str "<nop>" ++ after)) := by
    have hback : ¬ str "<!--" <:+: text ++ [ch '<'] := by
      rw [List.infix_concat_iff, not_or]
      refine ⟨fun hin => ?_, fun hin => htext (hin.subset (by decide))⟩
      have hlast := suffix_last (u := str "<!-") (a := ch '-') hin
      exact absurd hlast (by decide)
    have hfront : ¬ str "<!--" <:+: tag ++ (text ++ [ch '<']) := by
      rcases htag with rfl | rfl
      · exact hback
      · intro hin
        rcases infix_split (x := ch 'C') (u := str "<") (by decide) hin with hin | hin
        · exact absurd hin (by decide)
        · exact hback hin
    intro hin
    have hsplit : tag ++ (text ++ (str "<nop>" ++ after)) =
        (tag ++ (text ++ [ch '<'])) ++ ch 'n' :: (str "op>" ++ after) := by
      have hmark : str "<nop>" = [ch '<'] ++ ch 'n' :: str "op>" := by decide
      simp [hmark]
    rw [hsplit] at hin
    rcases infix_split (by decide) hin with hin | hin
    · exact hfront hin
    · rcases hafter with rfl | rfl
      · exact absurd hin (by decide)
      · exact absurd hin (by decide)
  have hcomment : gsubStr (pat "<!%-%-") (transToken ++ str "!--")
      (tag ++ (text ++ (str "<nop>" ++ after))) = tag ++ (text ++ (str "<nop>" ++ after)) :=
    replaceAll_misses (.of_reduce (by decide) hopens) _
  have hends : ∃ text', ch '<' ∉ text' ∧ gsubStr (pat "%-%->") (str "--" ++ transToken)
      (tag ++ (text ++ (str "<nop>" ++ after))) = tag ++ (text' ++ (str "<nop>" ++ after)) := by
    have hpat : pat "%-%->" = ⟨false, (pat "%-%->").items⟩ := by decide
    have hitems : (pat "%-%->").items.map Item.reduce = literalItems (str "-->") := by decide
    have hliteral : ∀ v, gsubStr (pat "%-%->") (str "--" ++ transToken) v =
        gsubStr ⟨false, literalItems (str "-->")⟩ (str "--" ++ transToken) v := by
      intro v
      rw [hpat, ← gsubStr_reduce, hitems]
    have hsplit : ∀ {x : Byte}, x ∉ str "-->" → ∀ u v,
        gsubStr (pat "%-%->") (str "--" ++ transToken) (u ++ x :: v) =
          gsubStr (pat "%-%->") (str "--" ++ transToken) u ++
            x :: gsubStr (pat "%-%->") (str "--" ++ transToken) v := by
      intro x hx u v
      have hrepl : ch '%' ∉ str "--" ++ transToken := by decide
      rw [hliteral, hliteral, hliteral]
      exact gsubStr_literal_split (by decide) hx hrepl u v
    have hnil : gsubStr (pat "%-%->") (str "--" ++ transToken) [] = [] := by decide
    have hmark : gsubStr (pat "%-%->") (str "--" ++ transToken) (str "nop>" ++ after) =
        str "nop>" ++ after := by
      rcases hafter with rfl | rfl <;> decide
    have htail : ∀ u, gsubStr (pat "%-%->") (str "--" ++ transToken)
        (u ++ (str "<nop>" ++ after)) =
          gsubStr (pat "%-%->") (str "--" ++ transToken) u ++ (str "<nop>" ++ after) := by
      intro u
      refine (hsplit (x := ch '<') (by decide) u (str "nop>" ++ after)).trans ?_
      rw [hmark]
      rfl
    refine ⟨gsubStr (pat "%-%->") (str "--" ++ transToken) text,
      not_mem_gsubStr (by decide) htext, ?_⟩
    rcases htag with rfl | rfl
    · exact htail text
    · have htagged : ∀ v, str "<C" ++ v = [] ++ ch '<' :: ([] ++ ch 'C' :: v) := fun _ => rfl
      rw [htagged, hsplit (by decide), hsplit (by decide), hnil, htail]
      rfl
  obtain ⟨text', htext', hends⟩ := hends
  have hruns : gsubStr (pat "(<<+)") (rep (str "&lt;") (str "%1").length)
      (tag ++ (text' ++ (str "<nop>" ++ after))) = tag ++ (text' ++ (str "<nop>" ++ after)) := by
    have hpat : pat "(<<+)" = ⟨false, runsOf (ch '<')⟩ := by decide
    have hmark : gsubRuns (ch '<') (rep (str "&lt;") (str "%1").length) (str "<nop>" ++ after) =
        str "<nop>" ++ after := by
      rcases hafter with rfl | rfl <;> decide
    rw [hpat, gsubStr_runs (by decide)]
    rcases htag with rfl | rfl
    · rw [List.nil_append, gsubRuns_absent htext', hmark]
    · have htagged : str "<C" ++ (text' ++ (str "<nop>" ++ after)) =
          ch '<' :: ch 'C' :: (text' ++ (str "<nop>" ++ after)) := rfl
      rw [htagged, gsubRuns_one (.of_ne (by decide) _), gsubRuns_other (by decide),
        gsubRuns_absent htext', hmark]
  have hcloses : ∀ u, ∃ u', gsubStr (pat "(>>+)") (rep (str "&gt;") (str "%1").length)
      (u ++ (str "<nop>" ++ after)) = u' ++ (str "<nop>" ++ after) := by
    intro u
    have hpat : pat "(>>+)" = ⟨false, runsOf (ch '>')⟩ := by decide
    have hmark : gsubRuns (ch '>') (rep (str "&gt;") (str "%1").length) (str "<nop>" ++ after) =
        str "<nop>" ++ after := by
      rcases hafter with rfl | rfl <;> decide
    have hfree : Free (ch '>') (str "<nop>" ++ after) := .of_ne (by decide) _
    refine ⟨gsubRuns (ch '>') (rep (str "&gt;") (str "%1").length) u, ?_⟩
    rw [hpat, gsubStr_runs (by decide), gsubRuns_append hfree, hmark]
  obtain ⟨u', hcloses⟩ := hcloses (tag ++ text')
  rw [hcomment, hends, hruns, ← List.append_assoc, hcloses]
  exact ⟨u', after, List.append_assoc ..⟩

theorem embeddedHtml_keepsMark (hw : ch '<' ∉ w) :
    str "<nop>" <:+: embeddedHtml (blockQuote (w ++ str "<nop>")) := by
  have hmark : pat "<nop>" = ⟨false, literalItems (str "<nop>")⟩ := by decide
  have htag : pat "<(%S.-)>" = ⟨false, [Segment.lit (str "<"),
      .cap [.single (.cls (ch 'S')) .one, .single .any .minus],
      .lit (str ">")].flatMap Segment.items⟩ := by decide
  have htoken : pat "~$~(%S.-)~$~" = ⟨false, [Segment.lit transToken,
      .cap [.single (.cls (ch 'S')) .one, .single .any .minus],
      .lit transToken].flatMap Segment.items⟩ := by decide
  have hbrackets : str "<%1>" = str "<" ++ (str "%1" ++ str ">") := by decide
  have hruns := markedLine_runs (markedLine_blockQuote hw)
  simp only [embeddedHtml]
  generalize gsubStr (pat "(>>+)") (rep (str "&gt;") (str "%1").length) _ = s at hruns ⊢
  refine replaceAll_infix_apart (by decide) (by decide) (by decide) _ ?_
  refine replaceAll_infix_apart (by decide) (by decide) (by decide) _ ?_
  rw [nopTOKEN_pattern]
  refine gsubStr_literal_infix (by decide) ?_
  rw [htoken, hbrackets]
  refine gsubStr_between_infix (by decide) (by decide) (by decide) (by decide) (by decide)
    (by decide) (by decide) ?_
  refine replaceAll_infix_apart (by decide) (by decide) (by decide) _ ?_
  refine replaceAll_infix_apart (by decide) (by decide) (by decide) _ ?_
  rw [htag, List.append_assoc]
  refine gsubStr_between_infix (by decide) (by decide) (by decide) (by decide) (by decide)
    (by decide) (by decide) ?_
  rw [hmark]
  exact gsubStr_literal_infix (by decide) hruns

/-! ### The other steps of a line -/

/-- A word that no colon follows is no scheme. -/
theorem matchHere_noScheme {b x : Byte} {u : Bytes} (hu : ∀ c ∈ u, isAlnum c = true)
    (hx : isAlnum x = false) (hcolon : x ≠ ch ':') (z : Bytes) :
    matchHere urlItems (b :: (u ++ x :: z)) = none := by
  cases hm : matchHere urlItems (b :: (u ++ x :: z)) with
  | none => rfl
  | some m =>
    obtain ⟨url⟩ := matchHere_url hm
    have hsplit := congrArg (List.dropWhile isAlnum) (List.cons.inj url.subject).2
    have hx' : ¬ isAlnum x = true := by simp [hx]
    rw [List.dropWhile_append_of_pos hu, List.dropWhile_append_of_pos url.typeBytes.2,
      List.dropWhile_cons_of_neg hx', List.dropWhile_cons_of_neg (by decide)] at hsplit
    exact absurd (List.cons.inj hsplit).1 hcolon

theorem embeddedUrls_mark (cls : FormatterClass) (z : Bytes) :
    ∃ z', embeddedUrls cls (str "nop>" ++ z) = str "nop>" ++ z' ∧
      embeddedUrls cls (str "<nop>" ++ z) = str "<nop>" ++ z' := by
  have hmiss : ∀ {b : Byte} {u : Bytes}, (∀ c ∈ u, isAlnum c = true) →
      matchHere urlItems (b :: (u ++ ch '>' :: z)) = none :=
    fun hu => matchHere_noScheme hu (by decide) (by decide) z
  have hend : StartsIn (· = ch '>') (embeddedUrls cls (ch '>' :: z)) :=
    embeddedUrls_startsIn cls ⟨_, z, rfl, rfl⟩
  obtain ⟨_, z', hend, rfl⟩ := hend
  rw [embeddedUrls_eq] at hend
  have hp : replaceAll ⟨false, urlItems⟩ (urlText cls) (str "p>" ++ z) = str "p>" ++ z' :=
    (replaceAll_miss (hmiss (u := []) (by decide))).trans (congrArg (ch 'p' :: ·) hend)
  have ho : replaceAll ⟨false, urlItems⟩ (urlText cls) (str "op>" ++ z) = str "op>" ++ z' :=
    (replaceAll_miss (hmiss (u := str "p") (by decide))).trans (congrArg (ch 'o' :: ·) hp)
  have hn : replaceAll ⟨false, urlItems⟩ (urlText cls) (str "nop>" ++ z) = str "nop>" ++ z' :=
    (replaceAll_miss (hmiss (u := str "op") (by decide))).trans (congrArg (ch 'n' :: ·) ho)
  rw [embeddedUrls_eq, embeddedUrls_eq]
  exact ⟨z', hn, (replaceAll_miss (hmiss (u := str "nop") (by decide))).trans
    (congrArg (ch '<' :: ·) hn)⟩

/-- A URL may end at the mark or begin behind it. -/
theorem embeddedUrls_keepsMark (cls : FormatterClass) (h : str "<nop>" <:+: line) :
    str "<nop>" <:+: embeddedUrls cls line := by
  obtain ⟨a, z, rfl⟩ := h
  rw [List.append_assoc]
  induction hn : a.length using Nat.strong_induction_on generalizing a with
  | _ n ih =>
    cases a with
    | nil =>
      obtain ⟨z', _, hmark⟩ := embeddedUrls_mark cls z
      rw [List.nil_append, hmark]
      exact (List.prefix_append _ _).isInfix
    | cons b a =>
      rw [List.length_cons] at hn
      cases hm : matchHere urlItems (b :: (a ++ (str "<nop>" ++ z))) with
      | none =>
        have hrest := ih a.length (by omega) a rfl
        rw [embeddedUrls_eq] at hrest ⊢
        rw [List.cons_append, replaceAll_miss hm]
        exact hrest.trans (List.suffix_cons _ _).isInfix
      | some m =>
        obtain ⟨url⟩ := matchHere_url hm
        have hne := matchHere_nonempty (by decide) hm
        have hpos := List.length_pos_of_ne_nil hne
        have hsplit : m.whole ++ m.after = (b :: a) ++ (str "<nop>" ++ z) := matchHere_append hm
        have hafter : ∀ x, m.after = x ++ (str "<nop>" ++ z) → x.length < n →
            str "<nop>" <:+: urlText cls m ++ embeddedUrls cls m.after := by
          intro x hx hlen
          rw [hx]
          exact (ih x.length hlen x rfl).trans (List.suffix_append _ _).isInfix
        rw [List.cons_append, embeddedUrls_eq, replaceAll_hit hm hne, ← embeddedUrls_eq]
        rcases List.append_eq_append_iff.mp hsplit with ⟨x, hx, hx'⟩ | ⟨y, hy, hy'⟩
        · have hlength := congrArg List.length hx
          rw [List.length_cons, List.length_append] at hlength
          exact hafter x hx' (by omega)
        · cases y with
          | nil => exact hafter [] (by simpa using hy'.symm) (by rw [List.length_nil]; omega)
          | cons d y =>
            obtain ⟨hd, hrest⟩ : ch '<' = d ∧ str "nop>" ++ z = y ++ m.after := List.cons.inj hy'
            subst hd
            have htail : (url.urlType ++ ch ':' :: (url.start ++ [url.last])) ++ [url.charAfter] =
                a ++ ch '<' :: y := by
              have hwhole := (url.whole hm).symm.trans hy
              simpa using (List.cons.inj hwhole).2
            -- the bracket of the mark can only be the byte after the address
            have hbody : ch '<' ∉ url.urlType ++ ch ':' :: (url.start ++ [url.last]) := by
              intro hmem
              rcases List.mem_append.mp hmem with hmem | hmem
              · exact absurd (url.typeBytes.2 _ hmem) (by decide)
              · rcases List.mem_cons.mp hmem with hmem | hmem
                · exact absurd hmem (by decide)
                · rcases List.mem_append.mp hmem with hmem | hmem
                  · exact absurd (url.startBytes.2 _ hmem) (by decide)
                  · have hlast := url.lastByte
                    rw [← List.mem_singleton.mp hmem] at hlast
                    exact absurd hlast (by decide)
            rcases List.eq_nil_or_concat y with rfl | ⟨y', e, hconcat⟩
            · have hchar : url.charAfter = ch '<' :=
                List.singleton_inj.mp (List.append_inj_right' htail rfl)
              obtain ⟨z', hword, _⟩ := embeddedUrls_mark cls z
              rw [url.text, hchar, show m.after = str "nop>" ++ z from hrest.symm, hword]
              exact ⟨url.charBefore :: processUrl cls url.urlType (url.start ++ [url.last]), z',
                by simp [show str "<nop>" = ch '<' :: str "nop>" by decide]⟩
            · rw [List.concat_eq_append] at hconcat
              subst hconcat
              have htail' : (url.urlType ++ ch ':' :: (url.start ++ [url.last])) ++
                  [url.charAfter] = (a ++ ch '<' :: y') ++ [e] := by
                rw [htail]
                simp
              have hsame := List.append_inj_left' htail' rfl
              exact absurd (by rw [hsame]; simp) hbody

/-- A pass whose matches begin with a byte that is not in the mark and never have its bracket. -/
theorem keepsMark_of_head {p : Pattern} {c : Single} (hmin : 0 < minLength p.items)
    (hhead : headSingle p.items = some c) (hlt : ∀ i ∈ p.items, i.takes (ch '<') = false)
    (hc : ∀ b ∈ str "<nop>", singleMatch b c = false) (f : Match → Bytes)
    (h : str "<nop>" <:+: line) : str "<nop>" <:+: replaceAll p f line := by
  refine replaceAll_infix_head (d := ch '<') (t := str "nop>") hlt
    (fun _ => ⟨hmin, fun b hb v => ?_⟩) f h
  refine matchHere_head hhead fun d t hd => ?_
  obtain ⟨rfl, _⟩ := List.cons.inj hd
  exact hc b hb

theorem entities_keepsMark (h : str "<nop>" <:+: line) : str "<nop>" <:+: entities line := by
  simp only [entities]
  refine replaceAll_infix_apart (by decide) (by decide) (by decide) _ ?_
  refine replaceAll_infix_apart (by decide) (by decide) (by decide) _ ?_
  refine keepsMark_of_head (c := .lit (ch '&')) (by decide) (by decide) (by decide) (by decide) _ ?_
  exact keepsMark_of_head (c := .lit (ch '&')) (by decide) (by decide) (by decide) (by decide) _ h

/-- The mark is behind a text without its bracket. -/
theorem mark_behind {u v : Bytes} (hu : ch '<' ∉ u) (h : str "<nop>" <:+: u ++ v) :
    str "<nop>" <:+: v := by
  obtain ⟨a, z, hsplit⟩ := h
  rw [List.append_assoc] at hsplit
  rcases List.append_eq_append_iff.mp hsplit with ⟨y, hy, hy'⟩ | ⟨y, _, hy'⟩
  · cases y with
    | nil => exact ⟨[], z, by simpa using hy'⟩
    | cons d y =>
      obtain ⟨rfl, _⟩ : ch '<' = d ∧ str "nop>" ++ z = y ++ v := List.cons.inj hy'
      exact absurd (by simp [hy]) hu
  · exact ⟨y, z, by rw [hy', List.append_assoc]⟩

theorem headings_keepsMark (h : str "<nop>" <:+: line) : str "<nop>" <:+: headings line := by
  have hpattern : pat "^(%-%-%-%++ )(.*)$" = ⟨true, (pat "^(%-%-%-%++ )(.*)$").items⟩ := by decide
  rw [headings, gsub, hpattern, replaceAll_anchor]
  cases hm : matchHere (pat "^(%-%-%-%++ )(.*)$").items line with
  | none => exact h
  | some m =>
    obtain ⟨hsplit, hbytes⟩ := matchHere_heading hm
    have hheader : ch '<' ∉ m.captures.getD 0 [] := fun hmem =>
      absurd (hbytes _ hmem) (by decide)
    have hrest : str "<nop>" <:+: m.captures.getD 1 [] := mark_behind hheader (hsplit ▸ h)
    dsimp only [Option.map_some, Option.getD_some]
    split_ifs
    · generalize decimal ((m.captures.getD 0 []).length - 4) = level
      exact hrest.trans ⟨str "<H" ++ level ++ str ">", str "</H" ++ level ++ str ">" ++ m.after,
        by simp⟩
    · exact hrest.trans ⟨m.captures.getD 0 [], m.after, by simp⟩

/-- A pass over the head of the line only. -/
theorem keepsMark_of_anchor {p : Pattern} (hanchor : p.anchor = true)
    (hlt : ∀ i ∈ p.items, i.takes (ch '<') = false) (f : Match → Bytes)
    (h : str "<nop>" <:+: line) : str "<nop>" <:+: replaceAll p f line :=
  replaceAll_infix_head (d := ch '<') (t := str "nop>") hlt
    (fun hfalse => absurd (hanchor.symm.trans hfalse) (by decide)) f h

theorem beforeTables_keepsMark (cls : FormatterClass) (hw : ch '<' ∉ w) :
    str "<nop>" <:+: beforeTables cls (w ++ str "<nop>") := by
  rw [beforeTables]
  refine keepsMark_of_anchor (by decide) (by decide) _ ?_
  exact headings_keepsMark (entities_keepsMark (embeddedUrls_keepsMark cls
    (embeddedHtml_keepsMark hw)))

def itemPatterns : List Pattern :=
  [pat "^([ ]+)%* ", pat "^([ ]+)(%d+%.?) ?", pat "^([ ]+)([1AaIi]%.) ?"]

/-- What the tag of an item for its mark keeps is kept by the lists of a line. -/
theorem lists_preserves {P : Bytes → Prop}
    (h : ∀ p ∈ itemPatterns, ∀ line, P line → P (gsub p (fun _ => str "<LI> ") line))
    (hline : P line) (st : FormatterState) : P (lists line st).1 := by
  have hitem : ∀ p ∈ itemPatterns, ∀ (theType line : Bytes) (st : FormatterState), P line →
      P (listItem p theType line st).1 := by
    intro p hp theType line st hline
    rw [listItem, gsubState_fst (g := fun _ => str "<LI> ") fun _ _ => rfl]
    exact h p hp line hline
  have h₁ := hitem (pat "^([ ]+)%* ") (by decide) (str "UL") line st hline
  rw [lists]
  generalize listItem (pat "^([ ]+)%* ") (str "UL") line st = item₁ at h₁ ⊢
  obtain ⟨line₁, st₁⟩ := item₁
  have h₂ := hitem (pat "^([ ]+)(%d+%.?) ?") (by decide) (str "OL") line₁ st₁ h₁
  dsimp only at h₂ ⊢
  generalize listItem (pat "^([ ]+)(%d+%.?) ?") (str "OL") line₁ st₁ = item₂ at h₂ ⊢
  obtain ⟨line₂, st₂⟩ := item₂
  have h₃ := hitem (pat "^([ ]+)([1AaIi]%.) ?") (by decide) (str "OL") line₂ st₂ h₂
  dsimp only at h₃ ⊢
  generalize listItem (pat "^([ ]+)([1AaIi]%.) ?") (str "OL") line₂ st₂ = item₃ at h₃ ⊢
  obtain ⟨line₃, st₃⟩ := item₃
  dsimp only at h₃ ⊢
  split_ifs
  · exact h₃
  · exact h₃

theorem lists_keepsMark (h : str "<nop>" <:+: line) (st : FormatterState) :
    str "<nop>" <:+: (lists line st).1 := by
  have hitems : ∀ p ∈ itemPatterns, p.anchor = true ∧
      ∀ i ∈ p.items, i.takes (ch '<') = false := by decide
  refine lists_preserves (fun p hp line hline => ?_) h st
  obtain ⟨hanchor, hlt⟩ := hitems p hp
  exact keepsMark_of_anchor hanchor hlt _ hline

theorem paragraphs_keepsMark (h : str "<nop>" <:+: line) (st : FormatterState) :
    str "<nop>" <:+: (paragraphs line st).1 := by
  have hline : (paragraphs line st).1 = gsubStr (pat "^%s*$") (htk "P" [] []) line := rfl
  rw [hline]
  exact keepsMark_of_anchor (by decide) (by decide) _ h

/-! ### Styles and links -/

theorem style_marks : ∀ r ∈ styleRules, r.mark ≠ [] ∧ ch ' ' ∉ r.mark ∧
    ∀ b ∈ str "<nop>", b ∉ r.mark := by decide +kernel

theorem style_items : ∀ rule ∈ emphasisRules, 0 < minLength rule.1.items ∧
    headSingle rule.1.items = some (.set false [.cls (ch 's'), .lit (ch '(')]) := by decide +kernel

/-- A match of a style ends in its second mark or in the byte after it. -/
theorem StyleMatch.last {m : Match} {r : StyleRule} (hr : r ∈ styleRules) (style : StyleMatch r m)
    {b : Byte} (hb : m.whole.getLast? = some b) :
    b ∈ r.mark ++ style.after ∧ (style.after ≠ [] → style.after.getLast? = some b) := by
  have hsplit : m.whole = (style.before ++ (r.mark ++ style.body)) ++ (r.mark ++ style.after) := by
    rw [style.whole]
    simp
  have hne : r.mark ++ style.after ≠ [] :=
    List.append_ne_nil_of_left_ne_nil (style_marks r hr).1 _
  rw [hsplit, List.getLast?_append_of_ne_nil _ hne] at hb
  refine ⟨List.mem_of_getLast? hb, fun hafter => ?_⟩
  rwa [List.getLast?_append_of_ne_nil _ hafter] at hb

/-- A match of a style has the whole mark between its own marks, or nothing of it. -/
theorem style_keepsMark {rule : Pattern × Bytes} (hrule : rule ∈ emphasisRules)
    (h : str "<nop>" <:+: line) :
    str "<nop>" <:+: gsubStr rule.1 (str "%1" ++ rule.2 ++ str "%3") line := by
  have hanchor := style_anchor rule hrule
  obtain ⟨hmin, hhead⟩ := style_items rule hrule
  have hmatch := fun v m => styleMatch (v := v) (m := m) hrule
  obtain ⟨⟨anchor, is⟩, repl⟩ := rule
  obtain rfl : anchor = false := hanchor
  have hmark : ∀ b ∈ str "<nop>", wordItem.takes b = false ∧ closingItem.takes b = false := by
    decide
  refine replaceAll_infix hmin ?_ ?_ ?_ h
  · intro b hb v
    refine matchHere_head hhead fun d t hd => ?_
    obtain ⟨rfl, _⟩ := List.cons.inj hd
    exact (hmark b hb).1
  · intro v m hm a y hy hinside
    obtain ⟨r, hr, _, ⟨style⟩⟩ := hmatch v m hm
    rcases List.eq_nil_or_concat y with hnil | ⟨y', b, hconcat⟩
    · exact hnil
    · rw [List.concat_eq_append] at hconcat
      subst hconcat
      have hb : b ∈ str "<nop>" := hinside.subset (by simp)
      have hlast : m.whole.getLast? = some b := by
        rw [hy, ← List.append_assoc, List.getLast?_concat]
      rcases List.mem_append.mp (style.last hr hlast).1 with hmem | hmem
      · exact absurd hmem ((style_marks r hr).2.2 b hb)
      · exact absurd (style.afterBytes b hmem) (by simp [(hmark b hb).2])
  · intro v m hm hinfix
    obtain ⟨r, hr, hrepl, ⟨style⟩⟩ := hmatch v m hm
    have hno : ∀ u : Bytes, ch '<' ∉ u → ¬ str "<nop>" <:+: u := fun u hu hin =>
      hu (hin.subset (by decide))
    have hbefore : ch '<' ∉ style.before := fun hmem =>
      absurd (style.beforeBytes _ hmem) (by decide)
    have hafter : ch '<' ∉ style.after := fun hmem => absurd (style.afterBytes _ hmem) (by decide)
    obtain ⟨hne, _, hapart⟩ := style_marks r hr
    rw [style.whole] at hinfix
    have hbody : str "<nop>" <:+: style.body := by
      rcases infix_of_apart hne hapart hinfix with hin | hin
      · exact absurd hin (hno _ hbefore)
      · rcases infix_of_apart hne hapart hin with hin | hin
        · exact hin
        · exact absurd hin (hno _ hafter)
    dsimp only at hrepl
    rw [hrepl, style.text hr]
    exact hbody.trans ⟨style.before ++ r.opening, r.closing ++ style.after, by simp⟩

/-- What every style keeps is kept by all of them. -/
theorem emphasis_preserves {P : Bytes → Prop}
    (h : ∀ rule ∈ emphasisRules, ∀ line, P line →
      P (gsubStr rule.1 (str "%1" ++ rule.2 ++ str "%3") line)) (hline : P line) :
    P (emphasis line) := by
  have hfold : ∀ (rules : List (Pattern × Bytes)) (line : Bytes),
      (∀ rule ∈ rules, rule ∈ emphasisRules) → P line →
      P (rules.foldl (fun line rule => gsubStr rule.1 (str "%1" ++ rule.2 ++ str "%3") line)
        line) := by
    intro rules
    induction rules with
    | nil => exact fun _ _ h => h
    | cons rule rules ih =>
      intro line hmem hline
      exact ih _ (fun r hr => hmem r (List.mem_cons_of_mem _ hr))
        (h rule (hmem rule (List.mem_cons_self ..)) line hline)
  rw [emphasis_eq]
  exact hfold emphasisRules line (fun _ h => h) hline

def isBlank (b : Byte) : Bool := b == ch ' '

theorem style_endsBlank {rule : Pattern × Bytes} (hrule : rule ∈ emphasisRules)
    (h : EndsIn isBlank line) :
    EndsIn isBlank (gsubStr rule.1 (str "%1" ++ rule.2 ++ str "%3") line) := by
  obtain ⟨hmin, _⟩ := style_items rule hrule
  refine replaceAll_endsIn hmin h fun v m hv hm hafter => ?_
  obtain ⟨r, hr, hrepl, ⟨style⟩⟩ := styleMatch hrule hm
  have hwhole := matchHere_append hm
  rw [hafter, List.append_nil] at hwhole
  have hne : v ≠ [] := hwhole ▸ matchHere_nonempty hmin hm
  obtain ⟨b, hb, hblank⟩ := (h.of_suffix hv hne).getLast
  obtain rfl : b = ch ' ' := by simpa [isBlank] using hblank
  rw [← hwhole] at hb
  obtain ⟨hmem, hlast⟩ := style.last hr hb
  have hin : ch ' ' ∈ style.after := by
    rcases List.mem_append.mp hmem with hmem | hmem
    · exact absurd hmem (style_marks r hr).2.1
    · exact hmem
  have hend : EndsIn isBlank style.after :=
    .of_getLast (hlast (List.ne_nil_of_mem hin)) (by decide)
  rw [hrepl, style.text hr]
  simpa only [List.append_assoc] using
    hend.append (style.before ++ (r.opening ++ (style.body ++ r.closing)))

theorem wordItem_lower (b : Byte) (h : wordItem.takes b = true) : isUpper b = false := by
  revert h; revert b
  refine forall_byte ?_
  decide +kernel

/-- A word is not the end of a line that ends in a blank. -/
theorem autoLinks_endsBlank (env : FormatterEnv) (st : FormatterState)
    (h : EndsIn isBlank line) : EndsIn isBlank (autoLinks env line st).1 := by
  have hpass : ∀ (p : Pattern) (f : List Bytes → Bytes) (line : Bytes), 0 < minLength p.items →
      (∀ v m, matchHere p.items v = some m → m.whole.getLast? ≠ some (ch ' ')) →
      EndsIn isBlank line → EndsIn isBlank (gsub p f line) := by
    intro p f line hmin hlast h
    refine replaceAll_endsIn hmin h fun v m hv hm hafter => ?_
    have hwhole := matchHere_append hm
    rw [hafter, List.append_nil] at hwhole
    have hne : v ≠ [] := hwhole ▸ matchHere_nonempty hmin hm
    obtain ⟨b, hb, hblank⟩ := (h.of_suffix hv hne).getLast
    obtain rfl : b = ch ' ' := by simpa [isBlank] using hblank
    exact absurd (hwhole ▸ hb) (hlast v m hm)
  have hblank : ∀ {t : Bytes}, Plain t → t.getLast? ≠ some (ch ' ') := fun ht hlast =>
    absurd (ht _ (List.mem_of_getLast? hlast)) (by decide)
  have hplain : ∀ v m, matchHere plainPattern.items v = some m →
      m.whole.getLast? ≠ some (ch ' ') := by
    intro v m hm
    obtain ⟨⟨before, topic, _, hwhole, _, hbefore, htopic, _⟩⟩ := plainMatch hm
    rw [if_neg (by decide), List.append_nil] at hwhole
    obtain ⟨b, hb, hupper⟩ := (matchHere_takes hm).2 (.single (.cls (ch 'u')) .plus) (by decide) rfl
    have hne : topic ≠ [] := by
      rintro rfl
      rw [hwhole, List.append_nil] at hb
      exact absurd (wordItem_lower b (hbefore b hb)) (by rw [show isUpper b = true from hupper]; simp)
    rw [hwhole, List.getLast?_append_of_ne_nil _ hne]
    exact hblank htopic
  have hanchored : ∀ v m, matchHere anchoredPattern.items v = some m →
      m.whole.getLast? ≠ some (ch ' ') := by
    intro v m hm
    obtain ⟨⟨before, topic, anchor, hwhole, _, _, _, hanchor⟩⟩ := anchoredMatch hm
    rw [if_pos rfl, ← List.append_assoc] at hwhole
    rw [hwhole, List.getLast?_append_of_ne_nil _ (List.cons_ne_nil _ _)]
    intro hlast
    cases anchor with
    | nil => exact absurd hlast (by decide)
    | cons c anchor =>
      rw [List.getLast?_cons_cons] at hlast
      exact hblank hanchor hlast
  rw [autoLinks_fst]
  split_ifs
  · exact h
  · exact hpass _ _ _ (by decide) hplain (hpass _ _ _ (by decide) hanchored h)

theorem autoLinks_keepsMark (env : FormatterEnv) (st : FormatterState)
    (h : str "<nop>" <:+: line) : str "<nop>" <:+: (autoLinks env line st).1 := by
  have hword : ∀ b ∈ str "<nop>",
      singleMatch b (.set false [.cls (ch 's'), .lit (ch '(')]) = false := by decide
  rw [autoLinks_fst]
  split_ifs
  · exact h
  · refine keepsMark_of_head (by decide) (by decide) (by decide) hword _ ?_
    exact keepsMark_of_head (by decide) (by decide) (by decide) hword _ h

/-! ### A line -/

theorem processTableLine_noRow (h : capture? (pat "^%s*(|.*|)%s*$") line = none)
    (st : FormatterState) : (processTableLine line st).1 = line := by
  rw [processTableLine, h]
  dsimp only
  split_ifs <;> rfl

/-- No link in brackets and no variable. -/
def Unmarked (s : Bytes) : Prop := ∀ x ∈ str "[%", x ∉ s

theorem Unmarked.gsubStr {p : Pattern} {repl s : Bytes} (h : Unmarked s)
    (hrepl : ∀ x ∈ str "[%", x ∉ plainBytes repl) : Unmarked (Lua.gsubStr p repl s) :=
  fun x hx => not_mem_gsubStr (hrepl x hx) (h x hx)

theorem headings_unmarked (h : Unmarked line) : Unmarked (headings line) := by
  have hdigits : ∀ n, Unmarked (decimal n) := by
    have hdigit : ∀ x ∈ str "[%", isDigit x ≠ true := by decide
    exact fun n x hx hmem => hdigit x hx (isDigit_decimal n x hmem)
  have htags : ∀ x ∈ str "[%", x ∉ str "<H" ∧ x ∉ str ">" ∧ x ∉ str "</H" := by decide
  intro x hx hmem
  obtain ⟨h₁, h₂, h₃⟩ := htags x hx
  rcases mem_replaceAll hmem with hmem | ⟨v, m, hv, hm, hmem⟩
  · exact h x hx hmem
  · obtain ⟨hsplit, _⟩ := matchHere_heading hm
    have hcaps : x ∉ m.captures.getD 0 [] ∧ x ∉ m.captures.getD 1 [] := by
      rw [← not_or, ← List.mem_append, hsplit]
      exact fun hin => h x hx (hv.subset hin)
    dsimp only at hmem
    split_ifs at hmem
    · simp only [List.mem_append, h₁, h₂, h₃, hcaps.2, hdigits _ x hx, or_self] at hmem
    · simp only [List.mem_append, hcaps, or_self] at hmem

theorem beforeTables_unmarked (cls : FormatterClass) (h : Unmarked line) :
    Unmarked (beforeTables cls line) := by
  have hquote : Unmarked (blockQuote line) := h.gsubStr (by decide)
  have hhtml : Unmarked (embeddedHtml (blockQuote line)) := by
    rw [embeddedHtml]
    iterate 12 refine Unmarked.gsubStr ?_ (by decide)
    exact hquote
  have hurls : Unmarked (embeddedUrls cls (embeddedHtml (blockQuote line))) := by
    have hput : ∀ x ∈ str "[%", x ∉ str "<A href=\":\"></A>" := by decide
    exact fun x hx => not_mem_embeddedUrls (hput x hx) (hhtml x hx) cls
  have hentities : Unmarked (entities (embeddedUrls cls (embeddedHtml (blockQuote line)))) := by
    rw [entities]
    iterate 4 refine Unmarked.gsubStr ?_ (by decide)
    exact hurls
  exact (headings_unmarked hentities).gsubStr (by decide)

theorem lists_unmarked (h : Unmarked line) (st : FormatterState) : Unmarked (lists line st).1 := by
  have htag : ∀ x ∈ str "[%", x ∉ str "<LI> " := by decide
  refine lists_preserves (fun p _ line hline x hx hmem => ?_) h st
  rcases mem_replaceAll hmem with hmem | ⟨_, _, _, _, hmem⟩
  · exact hline x hx hmem
  · exact htag x hx hmem

theorem emphasis_unmarked (h : Unmarked line) : Unmarked (emphasis line) := by
  have hrules : ∀ rule ∈ emphasisRules, ∀ x ∈ str "[%",
      x ∉ plainBytes (str "%1" ++ rule.2 ++ str "%3") := by decide
  exact emphasis_preserves (fun rule hrule _ hline => hline.gsubStr (hrules rule hrule)) h

/-- What is known of the last line before its links are looked for. -/
structure LastLine (s : Bytes) : Prop where
  mark : str "<nop>" <:+: s
  ending : EndsIn isBlank s
  unmarked : Unmarked s

/-- The last line of a page is no table row, and its mark is there before links are looked for. -/
theorem styledLine_lastLine (cls : FormatterClass) (hlt : ch '<' ∉ w) (hw : Unmarked w)
    (st : FormatterState) : LastLine (styledLine cls (w ++ str "<nop>") st).1 := by
  have hend : EndsIn endsNoRow (w ++ str "<nop>") := ⟨w ++ str "<nop", ch '>', by
    rw [List.append_assoc]; rfl, by decide⟩
  have hend' : EndsIn endsNoRow (beforeTables cls (w ++ str "<nop>")) := beforeTables_endsIn hend
  have hrow := processTableLine_noRow (no_row_of_endsIn hend') st
  have hmarked : Unmarked (w ++ str "<nop>") := by
    have hmark : ∀ x ∈ str "[%", x ∉ str "<nop>" := by decide
    intro x hx
    rw [List.mem_append, not_or]
    exact ⟨hw x hx, hmark x hx⟩
  have hline := beforeTables_keepsMark cls hlt
  have hplain := beforeTables_unmarked cls hmarked
  rw [← hrow] at hline hplain
  rw [styledLine]
  dsimp only
  generalize processTableLine (beforeTables cls (w ++ str "<nop>")) st = row at hline hplain ⊢
  have hparagraph := paragraphs_keepsMark hline row.2
  have hparagraph' : Unmarked (paragraphs row.1 row.2).1 := hplain.gsubStr (by decide)
  generalize paragraphs row.1 row.2 = paragraph at hparagraph hparagraph' ⊢
  have hitem := lists_keepsMark hparagraph paragraph.2
  have hitem' := lists_unmarked hparagraph' paragraph.2
  generalize lists paragraph.1 paragraph.2 = item at hitem hitem' ⊢
  have hanchor : str "<nop>" <:+: anchors item.1 :=
    keepsMark_of_anchor (by decide) (by decide) _ hitem
  have hanchor' : Unmarked (anchors item.1) := hitem'.gsubStr (by decide)
  refine ⟨?_, ?_, emphasis_unmarked fun x hx => ?_⟩
  · exact emphasis_preserves (fun rule hrule _ h => style_keepsMark hrule h)
      (hanchor.trans ⟨str " ", str " ", rfl⟩)
  · exact emphasis_preserves (fun rule hrule _ h => style_endsBlank hrule h)
      ⟨str " " ++ anchors item.1, ch ' ', rfl, by decide⟩
  · have hblank : ∀ x ∈ str "[%", x ∉ str " " := by decide
    simp [hanchor' x hx, hblank x hx]

/-- The mark is left in the line, and a blank is put behind it. -/
theorem formatWikiLine_lastLine (env : FormatterEnv) (hlt : ch '<' ∉ w) (hw : Unmarked w)
    (st : FormatterState) : ∃ a b, (formatWikiLine env (w ++ str "<nop>") st).1 =
      a ++ (str "<nop>" ++ b) ∧ ch ' ' ∈ b := by
  obtain ⟨hmark, hend, hplain⟩ := styledLine_lastLine env.cls hlt hw st
  rw [formatWikiLine_styled]
  dsimp only
  generalize styledLine env.cls (w ++ str "<nop>") st = styled at hmark hend hplain ⊢
  rw [hyperLinks_plain (hplain (ch '[') (by decide))]
  have hpercent : ch '%' ∉ (autoLinks env styled.1 styled.2).1 :=
    percent_autoLinks (hplain (ch '%') (by decide)) styled.2
  rw [percentVariables_plain hpercent]
  obtain ⟨a, b, hsplit⟩ := autoLinks_keepsMark env styled.2 hmark
  obtain ⟨u, c, hlast, hc⟩ := autoLinks_endsBlank env styled.2 hend
  obtain rfl : c = ch ' ' := by simpa [isBlank] using hc
  rw [List.append_assoc] at hsplit
  refine ⟨a, b, hsplit.symm, ?_⟩
  rcases List.eq_nil_or_concat b with rfl | ⟨b', d, rfl⟩
  · rw [List.append_nil] at hsplit
    have hlast' := congrArg List.getLast? (hsplit.trans hlast)
    rw [List.getLast?_append_of_ne_nil _ (by decide), List.getLast?_concat] at hlast'
    exact absurd hlast' (by decide)
  · rw [List.concat_eq_append] at hsplit ⊢
    have hlast' := congrArg List.getLast? (hsplit.trans hlast)
    rw [← List.append_assoc, ← List.append_assoc, List.getLast?_concat, List.getLast?_concat]
      at hlast'
    obtain rfl := Option.some.inj hlast'
    simp

/-! ### The text of the page -/

/-- The mark is put at the end, and once more where the text ends in a line feed. -/
theorem endOfPage_text (content : Bytes) :
    ∃ u, gsubStr (pat "(\n?)$") (str "\n<nop>\n") content = u ++ str "\n<nop>\n" ∧
      (u = content ∨ ∃ d, content = d ++ [10] ∧ u = d ++ str "\n<nop>\n") := by
  have hpattern : pat "(\n?)$" =
      ⟨false, [.startCapture, .single (.lit 10) .opt, .endCapture, .eos]⟩ := by decide
  induction content with
  | nil => exact ⟨[], by decide, .inl rfl⟩
  | cons b t ih =>
    by_cases hlast : b = 10 ∧ t = []
    · obtain ⟨rfl, rfl⟩ := hlast
      exact ⟨str "\n<nop>\n", by decide, .inr ⟨[], rfl, rfl⟩⟩
    · have hmiss : matchHere [.startCapture, .single (.lit 10) .opt, .endCapture, .eos] (b :: t) =
          none := by
        refine matchHere_eq_none ?_
        by_cases hb : b = 10
        · have ht : t ≠ [] := fun ht => hlast ⟨hb, ht⟩
          simp [doMatch, expand, ht]
        · simp [doMatch, expand, singleMatch, Ne.symm hb]
      obtain ⟨u, htext, hu⟩ := ih
      refine ⟨b :: u, ?_, ?_⟩
      · rw [gsubStr, hpattern] at htext ⊢
        rw [replaceAll_miss hmiss, htext]
        rfl
      · rcases hu with rfl | ⟨d, rfl, rfl⟩
        · exact .inl rfl
        · exact .inr ⟨b :: d, rfl, rfl⟩

/-- The line of the text that its last bytes belong to. -/
theorem textLines_concat (u : Bytes) {l : Bytes} (hl : 10 ∉ l) :
    ∃ lines w, textLines (u ++ (l ++ [10])) = lines ++ [w ++ l] ∧ w <:+ u ∧ 10 ∉ w := by
  induction hn : u.length using Nat.strong_induction_on generalizing u with
  | _ n ih =>
    by_cases hmem : 10 ∈ u
    · obtain ⟨v, u', rfl, hv⟩ := List.eq_append_cons_of_mem hmem
      obtain ⟨lines, w, hlines, hw, hten⟩ := ih u'.length (by simp [← hn]; omega) u' rfl
      have hcons := textLines_cons (u' ++ (l ++ [10])) hv
      refine ⟨v :: lines, w, by simpa [hlines] using hcons, ?_, hten⟩
      exact hw.trans ((List.suffix_cons 10 u').trans (List.suffix_append v (10 :: u')))
    · have hline : 10 ∉ u ++ l := by simp [hmem, hl]
      have hcons := textLines_cons [] hline
      rw [textLines_nil] at hcons
      exact ⟨[], u, by simpa using hcons, List.suffix_rfl, hmem⟩

/-- The mark ends the joined text, and what stands before it on its line is of the content. -/
theorem endOfPage_joined {c : Bytes} (hlt : ch '<' ∉ c) :
    ∃ u, gsubStr (pat "\\\n") [] (takeOutVerbatim (gsubStr (pat "(\n?)$") (str "\n<nop>\n") c)).1 =
      u ++ (str "<nop>" ++ [10]) ∧ ∀ w, w <:+ u → 10 ∉ w → ∀ b ∈ w, b ∈ c := by
  obtain ⟨u, htext, hu⟩ := endOfPage_text c
  have hverbatim : ¬ str "<verbatim>" <:+: u ++ str "\n<nop>\n" := by
    have hno : ∀ v : Bytes, ch '<' ∉ v → ¬ str "<verbatim>" <:+: v := fun v hv hin =>
      hv (hin.subset (by decide))
    have hmark : ∀ v : Bytes, ¬ str "<verbatim>" <:+: v →
        ¬ str "<verbatim>" <:+: v ++ str "\n<nop>\n" := by
      intro v hv hin
      rcases infix_split (x := 10) (v := str "<nop>\n") (by decide) hin with hin | hin
      · exact hv hin
      · exact absurd hin (by decide)
    rcases hu with rfl | ⟨d, rfl, rfl⟩
    · exact hmark u (hno u hlt)
    · exact hmark _ (hmark d (hno d fun hd => hlt (List.mem_append_left _ hd)))
  have hout : takeOutVerbatim (u ++ str "\n<nop>\n") = (u ++ str "\n<nop>\n", []) := by
    rw [takeOutVerbatim, verbatim_pattern, List.append_assoc]
    exact gsubState_misses ((Pattern.Misses.of_absent hverbatim).extend _) _ _
  have hjoin : ∀ v z : Bytes, gsubStr (pat "\\\n") [] (v ++ ch '<' :: z) =
      gsubStr (pat "\\\n") [] v ++ ch '<' :: gsubStr (pat "\\\n") [] z := by
    intro v z
    rw [join_pattern, List.nil_append]
    exact gsubStr_literal_split (by decide) (by decide) (by decide) v z
  have hsplit : ∀ v : Bytes, v ++ str "\n<nop>\n" = (v ++ [10]) ++ ch '<' :: str "nop>\n" := by
    intro v
    rw [List.append_assoc]
    rfl
  have hend : gsubStr (pat "\\\n") [] (str "nop>\n") = str "nop>" ++ [10] := by decide
  refine ⟨gsubStr (pat "\\\n") [] (u ++ [10]), ?_, fun w hw hten b hb => ?_⟩
  · rw [htext, hout, hsplit, hjoin, hend]
    rfl
  · rcases hu with rfl | ⟨d, rfl, rfl⟩
    · have hmem : b ∈ u ++ [10] := by
        by_contra hmem
        exact not_mem_gsubStr (List.not_mem_nil : b ∉ plainBytes []) hmem (hw.subset hb)
      rcases List.mem_append.mp hmem with hmem | hmem
      · exact hmem
      · rw [List.mem_singleton.mp hmem] at hb
        exact absurd hb hten
    · have hdouble : (ch '<' :: str "nop>\n") ++ [10] = ch '<' :: str "nop>\n\n" := by decide
      have hlast : gsubStr (pat "\\\n") [] (str "nop>\n\n") = str "nop>\n" ++ [10] := by decide
      rw [hsplit, List.append_assoc, hdouble, hjoin, hlast] at hw
      rcases List.eq_nil_or_concat w with rfl | ⟨w', a, rfl⟩
      · cases hb
      · rw [List.concat_eq_append] at hw hten
        rw [← List.cons_append, ← List.append_assoc] at hw
        exact absurd (by simp [suffix_last hw]) hten

/-- The text with its lines joined. -/
def joined (content : Bytes) : Bytes := gsubStr (pat "\\\n") [] (gsubStr (pat "\r") [] content)

/-- A content that has nothing of which a `<nop>` tag could be made. -/
structure NoTags (content : Bytes) : Prop where
  bytes : ∀ x ∈ str "<%[~", x ∉ joined content
  token : ¬ str "nopTOKEN" <:+: joined content

instance (content : Bytes) : Decidable (NoTags content) :=
  decidable_of_iff ((∀ x ∈ str "<%[~", x ∉ joined content) ∧
    ¬ str "nopTOKEN" <:+: joined content) ⟨fun h => ⟨h.1, h.2⟩, fun h => ⟨h.bytes, h.token⟩⟩

theorem NoTags.not_mem {content : Bytes} (h : NoTags content) :
    ∀ x ∈ str "<%[", x ∉ gsubStr (pat "\r") [] content := by
  have hkept : ∀ x ∈ str "<%[", x ∈ str "<%[~" ∧
      ∀ i ∈ (pat "\\\n").items, i.takes x = false := by decide
  intro x hx hmem
  obtain ⟨hin, htakes⟩ := hkept x hx
  exact h.bytes x hin (replaceAll_keeps htakes _ hmem)

/-- The last line of the page is what the content has before the mark. -/
theorem pageLines_last {content : Bytes} (h : NoTags content) :
    ∃ lines w, pageLines content = lines ++ [w ++ str "<nop>"] ∧ ch '<' ∉ w ∧ Unmarked w := by
  obtain ⟨u, htext, hu⟩ := endOfPage_joined (h.not_mem (ch '<') (by decide))
  obtain ⟨lines, w, hlines, hw, hten⟩ := textLines_concat u (l := str "<nop>") (by decide)
  have hpage : (pageText content).1 = u ++ (str "<nop>" ++ [10]) := htext
  have hmarks : ∀ x ∈ str "[%", x ∈ str "<%[" := by decide
  refine ⟨lines, w, by rw [pageLines, hpage, hlines], fun hin => ?_, fun x hx hin => ?_⟩
  · exact h.not_mem (ch '<') (by decide) (hu w hw hten _ hin)
  · exact h.not_mem x (hmarks x hx) (hu w hw hten _ hin)

/-! ### The page -/

/-- The mark is in the text, and a blank or a slash behind it. -/
def Stands (s : Bytes) : Prop :=
  ∃ x a b, s = a ++ (str "<nop>" ++ b) ∧ x ∈ str " /" ∧ x ∈ b

theorem Stands.append {s : Bytes} (h : Stands s) (t : Bytes) : Stands (s ++ t) := by
  obtain ⟨x, a, b, rfl, hx, hb⟩ := h
  exact ⟨x, a, b ++ t, by simp, hx, List.mem_append_left _ hb⟩

theorem Stands.behind {s : Bytes} (h : Stands s) (t : Bytes) : Stands (t ++ s) := by
  obtain ⟨x, a, b, rfl, hx, hb⟩ := h
  exact ⟨x, t ++ a, b, by simp, hx, hb⟩

/-- A section that is put back leaves the mark, and the pattern that should take it out does not
match. -/
theorem Stands.result {s : Bytes} (h : Stands s) (verbatimList : List Bytes) :
    str "<nop>" <:+: gsubStr (pat "\n?<nop>\n$") [] (putBackVerbatim s verbatimList) := by
  obtain ⟨x, a, b, rfl, hx, hb⟩ := h
  have hsection : pat "VERBATIM%((%d+)%)VERBATIM" =
      ⟨false, (pat "VERBATIM%((%d+)%)VERBATIM").items⟩ := by decide
  have hkept : (∀ x ∈ str " /", ∀ i ∈ (pat "VERBATIM%((%d+)%)VERBATIM").items,
      i.takes x = false) ∧ ∀ b ∈ str "<nop>", ∀ i ∈ (pat "VERBATIM%((%d+)%)VERBATIM").items,
        i.takes b = false := by decide
  have hend : pat "\n?<nop>\n$" =
      ⟨false, (.single (.lit 10) .opt :: literalItems (str "<nop>\n")) ++ [.eos]⟩ := by decide
  have htakes : ∀ x ∈ str " /", ∀ i ∈ Item.single (.lit 10) .opt :: literalItems (str "<nop>\n"),
      i.takes x = false := by decide
  have hback : ∃ a' b', putBackVerbatim (a ++ (str "<nop>" ++ b)) verbatimList =
      a' ++ (str "<nop>" ++ b') ∧ x ∈ b' := by
    rw [putBackVerbatim, gsub, hsection]
    obtain ⟨a', ha'⟩ := replaceAll_apart (by decide) (hkept.2 (ch '<') (by decide))
      (fun b hb => matchHere_not_taken (by decide) (hkept.2 b hb)) _ a b
    exact ⟨a', _, ha', replaceAll_keeps (hkept.1 x hx) _ hb⟩
  obtain ⟨a', b', hback, hb'⟩ := hback
  obtain ⟨c, d, rfl⟩ := List.append_of_mem hb'
  have hsplit : a' ++ (str "<nop>" ++ (c ++ x :: d)) = (a' ++ (str "<nop>" ++ c)) ++ x :: d := by
    simp
  rw [hback, hsplit, gsubStr, hend, replaceAll_end (htakes x hx), ← List.append_assoc]
  exact (List.infix_append a' (str "<nop>") c).trans (List.prefix_append _ _).isInfix

theorem FormatterState.addString_contents (st : FormatterState) (s : Option Bytes) :
    (st.addString s).result.contents = st.result.contents ++ s.getD [] :=
  StringBuffer.contents_addString ..

/-- The mark stands in the text, or is in a section that will be closed behind it. -/
def StandsOrOpen (st : FormatterState) : Prop :=
  Stands st.result.contents ∨ st.insidePre = true ∧ str "<nop>" <:+: st.result.contents

theorem pageLine_last (env : FormatterEnv) (hlt : ch '<' ∉ w) (hw : Unmarked w)
    (st : FormatterState) : StandsOrOpen (pageLine env (w ++ str "<nop>") st) := by
  have hsection : ∀ st : FormatterState, st.insidePre = true →
      StandsOrOpen (st.addString (some (w ++ str "<nop>" ++ str "\n"))) := by
    refine fun st hst => .inr ⟨hst, st.result.contents ++ w, str "\n", ?_⟩
    simp [FormatterState.addString_contents]
  rw [pageLine]
  generalize lineModes (w ++ str "<nop>") st = st'
  dsimp only
  split_ifs with hpre hlists
  · obtain ⟨types, elements, hframe⟩ := emitList_frame [] [] 0 none st'
    refine hsection _ ?_
    rw [hframe]
    exact hpre
  · exact hsection st' hpre
  · obtain ⟨a, b, hline, hb⟩ := formatWikiLine_lastLine env hlt hw st'
    have hstands : Stands (formatWikiLine env (w ++ str "<nop>") st').1 :=
      ⟨ch ' ', a, b, hline, by decide, hb⟩
    rw [StandsOrOpen, FormatterState.addString_contents]
    exact .inl (hstands.behind _)

theorem pageEnd_stands {st : FormatterState} (h : StandsOrOpen st) :
    Stands (pageEnd st).result.contents := by
  have hbefore : ∃ t, (if st.insideTable then st.addString (some (str "</table>\n")) else
      st).result.contents = st.result.contents ++ t ∧
        (if st.insideTable then st.addString (some (str "</table>\n")) else st).insidePre =
          st.insidePre := by
    split_ifs
    · exact ⟨_, FormatterState.addString_contents .., rfl⟩
    · exact ⟨[], (List.append_nil _).symm, rfl⟩
  obtain ⟨t, hcontents, hpre⟩ := hbefore
  rw [pageEnd]
  generalize (if st.insideTable = true then st.addString (some (str "</table>\n")) else st) = st'
    at hcontents hpre ⊢
  obtain ⟨types, elements, hframe⟩ := emitList_frame [] [] 0 none st'
  dsimp only
  generalize (emitList [] [] 0 none st').1 = emitted
  have hlists : ((emitList [] [] 0 none st').2.addString emitted).result.contents =
      st.result.contents ++ (t ++ emitted.getD []) := by
    rw [FormatterState.addString_contents, hframe, ← List.append_assoc, ← hcontents]
  have hopen : ((emitList [] [] 0 none st').2.addString emitted).insidePre = st.insidePre := by
    rw [← hpre, FormatterState.addString, hframe]
  rw [hopen]
  rcases h with h | ⟨hinside, a, b, hmark⟩
  · split_ifs
    · rw [FormatterState.addString_contents, hlists]
      exact (h.append _).append _
    · rw [hlists]
      exact h.append _
  · rw [if_pos hinside, FormatterState.addString_contents, hlists, ← hmark]
    exact ⟨ch '/', a, b ++ (t ++ emitted.getD []) ++ str "</pre>\n", by simp, by decide,
      List.mem_append_right _ (by decide)⟩

/-- No page is rid of its mark: the last line is rendered with blanks around it. -/
theorem formatWikiPage_keepsMark (env : FormatterEnv) {content : Bytes} (h : NoTags content)
    (st : FormatterState) : str "<nop>" <:+: (formatWikiPage env content st).1 := by
  obtain ⟨lines, w, hlines, hlt, hw⟩ := pageLines_last h
  rw [formatWikiPage_eq]
  dsimp only
  rw [(StringBuffer.toString_contents _).1, hlines, List.foldl_append]
  exact (pageEnd_stands (pageLine_last env hlt hw _)).result _

theorem formatWikiPage_keepsMark_backslash : NoTags (str "   * a\\") ∧
    str "<nop>" <:+: (formatWikiPage (emptyEnv .wiki) (str "   * a\\") {}).1 :=
  ⟨by decide, formatWikiPage_keepsMark (emptyEnv .wiki) (by decide) {}⟩

theorem formatWikiPage_markLeft : ¬ ∀ content, NoTags content →
    ¬ str "<nop>" <:+: (formatWikiPage (emptyEnv .wiki) content {}).1 := by
  intro h
  exact h (str "a\n") (by decide) (by decide +kernel)

end MoonWiki
