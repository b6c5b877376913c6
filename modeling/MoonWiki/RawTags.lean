import MoonWiki.Escaping
import MoonWiki.LinePatterns

/-! Tags that are written in the text of a line. -/
namespace MoonWiki
open Lua

variable {before t after line : Bytes} {env : FormatterEnv} {st : FormatterState}

/-- Letters, digits, blanks, and the marks of attribute values. -/
def isTagByte (b : Byte) : Bool := isAlnum b || isSpace b || (str "=\":/.#-").contains b

/-- Words, a tag and words. -/
structure TagLine (before t after : Bytes) : Prop where
  beforeBytes : LowerWords before
  first : ∀ b u, before = b :: u → isLower b = true
  tagFirst : StartsIn (fun b => isSpace b = false) t
  tagBytes : ∀ b ∈ t, isTagByte b = true
  afterBytes : LowerWords after

def rawTag (t : Bytes) : Bytes := str "<" ++ t ++ str ">"

theorem rawTag_eq (t : Bytes) : rawTag t = ch '<' :: (t ++ [ch '>']) := by
  simp [rawTag, show str "<" = [ch '<'] by decide, show str ">" = [ch '>'] by decide]

/-! ### Passes over one tag -/

def tagPattern : Pattern := pat "<(%S.-)>"

def tagItems : List Item :=
  [.single (.lit (ch '<')) .one, .startCapture, .single (.cls (ch 'S')) .one, .single .any .minus,
    .endCapture, .single (.lit (ch '>')) .one]

theorem tag_pattern : pat "<(%S.-)>" = ⟨false, tagItems⟩ := by decide

/-- The text up to a mark that is not in it. -/
theorem doMatch_upTo {x : Byte} (bs : Bytes) (caps : List Capture) (v : Bytes)
    (hfirst : StartsIn (fun b => isSpace b = false) t) (hx : x ∉ t) :
    doMatch (.startCapture :: .single (.cls (ch 'S')) .one :: .single .any .minus :: .endCapture ::
      literalItems (x :: bs)) caps (t ++ ((x :: bs) ++ v)) = some (v, caps ++ [.done t]) := by
  obtain ⟨b, u, rfl, hb⟩ := hfirst
  have hS : singleMatch b (.cls (ch 'S')) = true := by
    have hclass : ∀ b, isSpace b = false → singleMatch b (.cls (ch 'S')) = true := by
      refine forall_byte ?_
      decide +kernel
    exact hclass b hb
  have hend : ∀ s, doMatch (literalItems (x :: bs)) (caps ++ [.done (b :: u)]) ((x :: bs) ++ s) =
      some (s, caps ++ [.done (b :: u)]) := by
    intro s
    have hlit := doMatch_literal (x :: bs) [] (caps ++ [.done (b :: u)]) s
    rwa [List.append_nil] at hlit
  rw [doMatch, List.cons_append, doMatch_one hS]
  refine doMatch_minus_first (fun _ _ => rfl) (fun w y hu hy => ?_) ?_
  · -- the mark is not found inside the text
    obtain ⟨d, y, rfl⟩ := List.exists_cons_of_ne_nil hy
    have hd : d ≠ x := fun h => hx (by simp [hu, h])
    rw [doMatch]
    have hnone : doMatch (literalItems (x :: bs) ++ [])
        (endCapture (d :: y ++ ((x :: bs) ++ v))
          (caps ++ [.unfinished (b :: (u ++ ((x :: bs) ++ v)))])) (d :: y ++ ((x :: bs) ++ v)) =
            none := by
      refine doMatch_literal_none ?_
      rintro ⟨r, hr⟩
      exact hd (List.cons.inj hr).1.symm
    rwa [List.append_nil] at hnone
  · exact (doMatch_endCapture (b :: u) _).trans (hend v)

/-- A tag at the head is put between tokens. -/
theorem gsubStr_tag_head (hfirst : StartsIn (fun b => isSpace b = false) t) (ht : ch '>' ∉ t)
    (after : Bytes) :
    gsubStr tagPattern (transToken ++ str "%1" ++ transToken) (ch '<' :: (t ++ ch '>' :: after)) =
      transToken ++ (t ++ (transToken ++
        gsubStr tagPattern (transToken ++ str "%1" ++ transToken) after)) := by
  have hd : doMatch tagItems [] (ch '<' :: (t ++ ([ch '>'] ++ after))) =
      some (after, [.done t]) := by
    have hupTo := doMatch_upTo [] [] after hfirst ht
    rw [tagItems, doMatch_one (by decide)]
    exact hupTo
  have hsplit : ch '<' :: (t ++ ch '>' :: after) = (ch '<' :: (t ++ [ch '>'])) ++ after := by simp
  have hd' : doMatch tagItems [] (ch '<' :: (t ++ [ch '>']) ++ after) =
      some (after, [.done t]) := by
    rw [← hsplit]
    exact hd
  have hm : matchHere tagItems (ch '<' :: (t ++ ch '>' :: after)) =
      some ⟨ch '<' :: (t ++ [ch '>']), [t], after⟩ := by
    rw [hsplit, matchHere_of_doMatch hd']
    rfl
  have hadd : addS ⟨ch '<' :: (t ++ [ch '>']), [t], after⟩ (transToken ++ str "%1" ++ transToken) =
      transToken ++ (t ++ transToken) := by
    rw [show transToken ++ str "%1" ++ transToken =
      [126, 36, 126, 37, 49, 126, 36, 126] by decide,
      show transToken = [126, 36, 126] by decide]
    simp [addS, ch, isDigit]
  rw [tagPattern, tag_pattern, gsubStr, replaceAll_hit hm (List.cons_ne_nil _ _), hadd, gsubStr]
  simp

/-- Before the first bracket there is no tag. -/
theorem gsubStr_tag_run (hbefore : ch '<' ∉ before) (repl v : Bytes) :
    gsubStr tagPattern repl (before ++ v) = before ++ gsubStr tagPattern repl v := by
  have hhead : headSingle tagItems = some (.lit (ch '<')) := by decide
  rw [tagPattern, tag_pattern]
  exact replaceAll_run hhead (fun b hb => beq_false_of_ne fun h => hbefore (h ▸ hb)) _ v

theorem gsubStr_tag (hbefore : ch '<' ∉ before)
    (hfirst : StartsIn (fun b => isSpace b = false) t) (ht : ch '>' ∉ t) (hafter : ch '<' ∉ after) :
    gsubStr (pat "<(%S.-)>") (transToken ++ str "%1" ++ transToken)
        (before ++ (ch '<' :: (t ++ ch '>' :: after))) =
      before ++ (transToken ++ (t ++ (transToken ++ after))) := by
  have hmiss : tagPattern.Misses after := .of_needs (x := ch '<') (by decide) hafter
  have hrest : gsubStr tagPattern (transToken ++ str "%1" ++ transToken) after = after :=
    replaceAll_misses hmiss _
  have htag := gsubStr_tag_head hfirst ht after
  rw [hrest] at htag
  exact (gsubStr_tag_run hbefore _ _).trans (congrArg (before ++ ·) htag)

/-- A text between tokens becomes a tag. -/
theorem gsubStr_tokens_head (hfirst : StartsIn (fun b => isSpace b = false) t) (ht : ch '~' ∉ t)
    (after : Bytes) :
    gsubStr tokenPattern (str "<%1>") (transToken ++ (t ++ (transToken ++ after))) =
      ch '<' :: (t ++ ch '>' :: gsubStr tokenPattern (str "<%1>") after) := by
  have hd : doMatch tokenPattern.items [] (transToken ++ (t ++ (transToken ++ after))) =
      some (after, [.done t]) := by
    rw [tokenPattern_eq]
    exact (doMatch_literal transToken _ _ _).trans (doMatch_upTo (str "$~") _ _ hfirst ht)
  have hsplit : transToken ++ (t ++ (transToken ++ after)) =
      transToken ++ (t ++ transToken) ++ after := by simp
  have hm : matchHere tokenPattern.items (transToken ++ (t ++ (transToken ++ after))) =
      some ⟨transToken ++ (t ++ transToken), [t], after⟩ := by
    rw [hsplit] at hd ⊢
    rw [matchHere_of_doMatch hd]
    rfl
  have hadd : addS ⟨transToken ++ (t ++ transToken), [t], after⟩ (str "<%1>") =
      ch '<' :: (t ++ [ch '>']) := by
    rw [show str "<%1>" = [60, 37, 49, 62] by decide]
    simp [addS, ch, isDigit]
  have hpattern : tokenPattern = ⟨false, tokenPattern.items⟩ := by decide
  rw [hpattern, gsubStr, replaceAll_hit hm (List.append_ne_nil_of_left_ne_nil (by decide) _), hadd,
    gsubStr]
  simp

theorem gsubStr_tokens_run (hbefore : ch '~' ∉ before) (repl v : Bytes) :
    gsubStr tokenPattern repl (before ++ v) = before ++ gsubStr tokenPattern repl v := by
  have hhead : headSingle tokenPattern.items = some (.lit (ch '~')) := by decide
  have hpattern : tokenPattern = ⟨false, tokenPattern.items⟩ := by decide
  rw [hpattern]
  exact replaceAll_run hhead (fun b hb => beq_false_of_ne fun h => hbefore (h ▸ hb)) _ v

theorem gsubStr_tokens (hbefore : ch '~' ∉ before)
    (hfirst : StartsIn (fun b => isSpace b = false) t) (ht : ch '~' ∉ t) (hafter : ch '~' ∉ after) :
    gsubStr tokenPattern (str "<%1>") (before ++ (transToken ++ (t ++ (transToken ++ after)))) =
      before ++ (ch '<' :: (t ++ ch '>' :: after)) := by
  have hmiss : tokenPattern.Misses after := .of_needs (x := ch '~') (by decide) hafter
  have hrest : gsubStr tokenPattern (str "<%1>") after = after := replaceAll_misses hmiss _
  rw [gsubStr_tokens_run hbefore, gsubStr_tokens_head hfirst ht, hrest]

/-! ### The tag in `embeddedHtml` -/

namespace TagLine

theorem not_mem (h : TagLine before t after) {x : Byte} (hx : isTagByte x = false) :
    x ∉ before ∧ x ∉ t ∧ x ∉ after := by
  have hlower : isLower x = false ∧ x ≠ ch ' ' := by
    have hfacts : ∀ x, isTagByte x = false → isLower x = false ∧ x ≠ ch ' ' := by
      refine forall_byte ?_
      decide +kernel
    exact hfacts x hx
  exact ⟨h.beforeBytes.not_mem hlower.1 hlower.2, not_mem_of_bytes h.tagBytes hx,
    h.afterBytes.not_mem hlower.1 hlower.2⟩

theorem not_mem_line (h : TagLine before t after) {x : Byte} (hx : isTagByte x = false)
    (hlt : x ≠ ch '<') (hgt : x ≠ ch '>') : x ∉ before ++ (ch '<' :: (t ++ ch '>' :: after)) := by
  obtain ⟨hbefore, ht, hafter⟩ := h.not_mem hx
  simp [hbefore, ht, hafter, hlt, hgt]

theorem head (h : TagLine before t after) (s : Bytes) :
    StartsIn (fun b => isLower b = true ∨ b = ch '<') (before ++ ch '<' :: s) := by
  cases hb : before with
  | nil => exact ⟨_, s, rfl, .inr rfl⟩
  | cons b u => exact ⟨b, u ++ ch '<' :: s, rfl, .inl (h.first b u hb)⟩

theorem blockQuote_eq (h : TagLine before t after) (s : Bytes) :
    blockQuote (before ++ ch '<' :: s) = before ++ ch '<' :: s := by
  obtain ⟨b, u, hb, hfirst⟩ := h.head s
  have hgt : b ≠ ch '>' := by
    rcases hfirst with hlower | rfl
    · exact ne_of_test hlower (by decide)
    · decide
  refine replaceAll_misses (Pattern.Misses.of_head rfl (c := .lit (ch '>')) (by decide) ?_) _
  intro d v hd
  rw [hb] at hd
  obtain ⟨rfl, _⟩ := List.cons.inj hd
  exact beq_false_of_ne hgt.symm

/-- The end of a comment is in the line only at the end of the tag. -/
theorem no_commentEnd (h : TagLine before t after) (hdashes : ¬ str "--" <:+ t) :
    ¬ str "-->" <:+: before ++ (ch '<' :: (t ++ ch '>' :: after)) := by
  rintro ⟨w, z, hwz⟩
  obtain ⟨hbefore, ht, hafter⟩ := h.not_mem (x := ch '>') (by decide)
  have hleft : ch '>' ∉ before ++ ch '<' :: t := by
    simp [hbefore, ht, show ch '>' ≠ ch '<' by decide]
  have hsplit : (before ++ ch '<' :: t) ++ ch '>' :: after = (w ++ str "--") ++ ch '>' :: z := by
    rw [show str "-->" = str "--" ++ [ch '>'] by decide] at hwz
    simpa using hwz.symm
  obtain ⟨hends, _⟩ := (List.append_cons_inj_of_notMem hleft hafter).mp hsplit
  have hsuffix : str "--" <:+ (before ++ [ch '<']) ++ t := ⟨w, by rw [← hends]; simp⟩
  obtain ⟨y, hy⟩ := hsuffix
  rcases List.append_eq_append_iff.mp hy with ⟨x, hx, hdash⟩ | ⟨x, _, rfl⟩
  · -- the dashes would begin in the bracket or before it
    rcases List.eq_nil_or_concat x with rfl | ⟨x, b, rfl⟩
    · exact hdashes ⟨[], hdash⟩
    · have hb : b = ch '<' := by
        rw [List.concat_eq_append, ← List.append_assoc] at hx
        exact (List.singleton_inj.mp (List.append_inj' hx rfl).2).symm
      have hmem : b ∈ str "--" := by
        rw [hdash]
        simp
      rw [hb] at hmem
      exact absurd hmem (by decide)
  · exact hdashes ⟨x, rfl⟩

/-- Without `nopTOKEN` the words are left. -/
theorem nopTOKEN_eq (h : TagLine before t after) :
    gsubStr (pat "nopTOKEN") (str "<nop>") (before ++ (ch '<' :: (t ++ ch '>' :: after))) =
      before ++ (ch '<' :: (gsubStr (pat "nopTOKEN") (str "<nop>") t ++ ch '>' :: after)) := by
  rw [gsubStr_nopTOKEN_split (by decide), gsubStr_nopTOKEN_split (by decide),
    h.beforeBytes.no_nopTOKEN, h.afterBytes.no_nopTOKEN]

/-- The mark that `<nop>` is replaced by is put back. -/
theorem embeddedHtml_nop (hbefore : LowerWords before) (hafter : LowerWords after) :
    gsubStr (pat "nopTOKEN") (str "<nop>")
        (gsubStr (pat "<nop>") (str "nopTOKEN") (before ++ (str "<nop>" ++ after))) =
      before ++ (str "<nop>" ++ after) ∧
    gsubStr (pat "<nop>") (str "nopTOKEN") (before ++ (str "<nop>" ++ after)) =
      before ++ (str "nopTOKEN" ++ after) := by
  have hout : gsubStr (pat "<nop>") (str "nopTOKEN") (before ++ (str "<nop>" ++ after)) =
      before ++ (str "nopTOKEN" ++ after) := by
    have hsplit : str "<nop>" ++ after = str "<nop" ++ ch '>' :: after := rfl
    rw [hsplit]
    exact gsubStr_once rfl (by decide) (by decide) (by decide)
      (hbefore.not_mem (by decide) (by decide)) (hafter.not_mem (by decide) (by decide))
  have hback : gsubStr (pat "nopTOKEN") (str "<nop>") (before ++ (str "nopTOKEN" ++ after)) =
      before ++ (str "<nop>" ++ after) := by
    have hsplit : str "nopTOKEN" ++ after = str "nopTOKE" ++ ch 'N' :: after := rfl
    rw [hsplit]
    exact gsubStr_once rfl (by decide) (by decide) (by decide)
      (hbefore.not_mem (by decide) (by decide)) (hafter.not_mem (by decide) (by decide))
  rw [hout]
  exact ⟨hback, rfl⟩

/-- What `embeddedHtml` makes of the line when the tag does not end a comment. -/
theorem embeddedHtml_eq (h : TagLine before t after) (hdashes : ¬ str "--" <:+ t) :
    embeddedHtml (before ++ (ch '<' :: (t ++ ch '>' :: after))) =
      before ++ (ch '<' :: (gsubStr (pat "nopTOKEN") (str "<nop>") t ++ ch '>' :: after)) := by
  obtain ⟨hltB, hltT, hltA⟩ := h.not_mem (x := ch '<') (by decide)
  obtain ⟨hgtB, hgtT, hgtA⟩ := h.not_mem (x := ch '>') (by decide)
  obtain ⟨htlB, htlT, htlA⟩ := h.not_mem (x := ch '~') (by decide)
  have hne : ch '<' ≠ ch '>' := by decide
  have hline : ∀ x, isTagByte x = false → x ≠ ch '<' → x ≠ ch '>' →
      x ∉ before ++ (ch '<' :: (t ++ ch '>' :: after)) := fun x => h.not_mem_line
  have hopens : (pat "(<<+)").Misses (before ++ (ch '<' :: (t ++ ch '>' :: after))) :=
    .of_once (by decide) hltB (by simp [hltT, hltA, hne])
  have hsplit : before ++ (ch '<' :: (t ++ ch '>' :: after)) =
      (before ++ ch '<' :: t) ++ ch '>' :: after := by simp
  have hcloses : (pat "(>>+)").Misses (before ++ (ch '<' :: (t ++ ch '>' :: after))) := by
    rw [hsplit]
    exact .of_once (by decide) (by simp [hgtB, hgtT, hne.symm]) hgtA
  have hexcl : (pat "<!%-%-").Misses (before ++ (ch '<' :: (t ++ ch '>' :: after))) :=
    .of_needs (x := ch '!') (by decide) (hline _ (by decide) (by decide) (by decide))
  have hclose : (pat "%-%->").Misses (before ++ (ch '<' :: (t ++ ch '>' :: after))) :=
    .of_reduce (b := str "-->") (by decide) (h.no_commentEnd hdashes)
  -- the last passes find no token in the text with the tag
  have htilde : ch '~' ∉
      before ++ (ch '<' :: (gsubStr (pat "nopTOKEN") (str "<nop>") t ++ ch '>' :: after)) := by
    have hne : ∀ b ∈ before ++ (ch '<' :: (t ++ ch '>' :: after)), b ≠ ch '~' := by
      intro b hb heq
      exact hline (ch '~') (by decide) (by decide) (by decide) (heq ▸ hb)
    rw [← h.nopTOKEN_eq]
    exact fun hmem => gsubStr_bytes rfl (by decide) hne _ hmem rfl
  have hcomment := Pattern.Misses.of_needs (p := pat "~$~!%-%-") (x := ch '~') (by decide) htilde
  have hends := Pattern.Misses.of_needs (p := pat "%-%-~$~") (x := ch '~') (by decide) htilde
  have hnop := h.nopTOKEN_eq
  by_cases ht : t = str "nop"
  · subst ht
    obtain ⟨hback, hout⟩ := embeddedHtml_nop h.beforeBytes h.afterBytes
    have hmarked : ∀ x, x ∉ str "nopTOKEN" → x ∉ before → x ∉ after →
        x ∉ before ++ (str "nopTOKEN" ++ after) := by
      intro x hx hb ha
      simp [hx, hb, ha]
    have hlt := hmarked _ (by decide) hltB hltA
    have hgt := hmarked _ (by decide) hgtB hgtA
    have htag : (pat "<(%S.-)>").Misses (before ++ (str "nopTOKEN" ++ after)) :=
      .of_needs (x := ch '<') (by decide) hlt
    have hlower : (pat "<").Misses (before ++ (str "nopTOKEN" ++ after)) :=
      .of_needs (x := ch '<') (by decide) hlt
    have hgreater : (pat ">").Misses (before ++ (str "nopTOKEN" ++ after)) :=
      .of_needs (x := ch '>') (by decide) hgt
    have htokens : (pat "~$~(%S.-)~$~").Misses (before ++ (str "nopTOKEN" ++ after)) :=
      .of_needs (x := ch '~') (by decide) (hmarked _ (by decide) htlB htlA)
    have hwords : before ++ (ch '<' :: (str "nop" ++ ch '>' :: after)) =
        before ++ (str "<nop>" ++ after) := rfl
    have hsame : gsubStr (pat "nopTOKEN") (str "<nop>") (str "nop") = str "nop" := by decide
    rw [hsame, hwords] at htilde hcomment hends ⊢
    rw [hwords] at hopens hcloses hexcl hclose
    rw [hout] at hback
    simp only [gsubStr] at hback hout
    simp only [embeddedHtml, gsubStr]
    rw [replaceAll_misses hexcl, replaceAll_misses hclose, replaceAll_misses hopens,
      replaceAll_misses hcloses, hout, replaceAll_misses htag, replaceAll_misses hlower,
      replaceAll_misses hgreater, replaceAll_misses htokens, hback, replaceAll_misses hcomment,
      replaceAll_misses hends]
  · have hmark : (pat "<nop>").Misses (before ++ (ch '<' :: (t ++ ch '>' :: after))) := by
      refine .of_reduce (b := str "<nop>") (by decide) fun hin => ht ?_
      obtain ⟨w, z, hwz⟩ := hin
      have hwz' : before ++ ch '<' :: (t ++ ch '>' :: after) =
          w ++ ch '<' :: (str "nop" ++ ch '>' :: z) := by
        rw [← hwz]
        simp [show str "<nop>" = ch '<' :: (str "nop" ++ [ch '>']) by decide]
      obtain ⟨_, _, htag⟩ := (List.append_cons_inj_of_notMem hltB
        (by simp [hltT, hltA, hne])).mp hwz'
      exact (append_mark_inj hgtT (by decide) htag).1
    have htag := gsubStr_tag hltB h.tagFirst hgtT hltA
    have htokens := gsubStr_tokens htlB h.tagFirst htlT htlA
    have hlower : (pat "<").Misses (before ++ (transToken ++ (t ++ (transToken ++ after)))) :=
      .of_needs (x := ch '<') (by decide) (by
        simp [hltB, hltT, hltA, show ch '<' ∉ transToken by decide])
    have hgreater : (pat ">").Misses (before ++ (transToken ++ (t ++ (transToken ++ after)))) :=
      .of_needs (x := ch '>') (by decide) (by
        simp [hgtB, hgtT, hgtA, show ch '>' ∉ transToken by decide])
    simp only [gsubStr, tokenPattern] at hcomment hends hnop htag htokens
    simp only [embeddedHtml, gsubStr]
    rw [replaceAll_misses hexcl, replaceAll_misses hclose, replaceAll_misses hopens,
      replaceAll_misses hcloses, replaceAll_misses hmark, htag, replaceAll_misses hlower,
      replaceAll_misses hgreater, htokens, hnop, replaceAll_misses hcomment,
      replaceAll_misses hends]

end TagLine

/-! ### A tag that ends a comment -/

/-- The bytes that no step gives a meaning to, and those of HTML. -/
def isInertByte (b : Byte) : Bool := !(str "[%+|").contains b && b != 0

/-- The byte begins a line without a block. -/
def opensText (b : Byte) : Prop := isSpace b = false ∧ b ≠ ch '-' ∧ b ≠ ch '#'

instance : DecidablePred opensText := fun _ => inferInstanceAs (Decidable (_ ∧ _))

theorem escapeLt_same {s : Bytes} (h : ch '<' ∉ s) : escapeLt s = s := by
  have hcopy : ∀ b ∈ s, (if b = ch '<' then str "&lt;" else [b]) = [b] := by
    intro b hb
    exact if_neg fun heq : b = ch '<' => h (heq ▸ hb)
  rw [escapeLt, List.flatMap_congr hcopy]
  exact List.flatMap_singleton' s

theorem escapeLt_one {u v : Bytes} (hu : ch '<' ∉ u) (hv : ch '<' ∉ v) :
    escapeLt (u ++ ch '<' :: v) = u ++ (str "&lt;" ++ v) := by
  have hsplit : escapeLt (u ++ ch '<' :: v) = escapeLt u ++ (str "&lt;" ++ escapeLt v) := by
    simp only [escapeLt, List.flatMap_append, List.flatMap_cons, ↓reduceIte]
  rw [hsplit, escapeLt_same hu, escapeLt_same hv]

/-- One token is no tag. -/
theorem tokenPattern_misses {u v : Bytes} (hu : ch '~' ∉ u) (hv : ch '~' ∉ v) :
    tokenPattern.Misses (u ++ (transToken ++ v)) := by
  have htwo : (u ++ (transToken ++ v)).count (ch '~') = 2 := by
    rw [List.count_append, List.count_append, List.count_eq_zero.mpr hu, List.count_eq_zero.mpr hv]
    decide
  intro w hw _
  refine matchHere_eq_none ?_
  cases hd : doMatch tokenPattern.items [] w with
  | none => rfl
  | some r =>
    rw [tokenPattern_eq] at hd
    obtain ⟨x, rfl, hx⟩ := doMatch_literal_sound hd
    obtain ⟨y, rfl, _, hneeded⟩ := doMatch_takes hx
    obtain ⟨b, hb, htakes⟩ := hneeded (.single (.lit (ch '~')) .one) (by decide) rfl
    obtain rfl : ch '~' = b := by simpa [Item.takes, singleMatch] using htakes
    have hpos := List.count_pos_iff.mpr hb
    have hle := hw.sublist.count_le (ch '~')
    rw [htwo, List.count_append, List.count_append, show (str "~$~").count (ch '~') = 2 by decide]
      at hle
    omega

namespace TagLine

theorem inert (h : TagLine before t after) :
    ∀ b ∈ before ++ (ch '<' :: (t ++ ch '>' :: after)), isInertByte b = true := by
  have hbytes : ∀ b, isTagByte b = true → isInertByte b = true := by
    refine forall_byte ?_
    decide +kernel
  have hword : ∀ b, isLower b = true ∨ b = ch ' ' → isInertByte b = true := by
    refine forall_byte ?_
    decide +kernel
  intro b hb
  simp only [List.mem_append, List.mem_cons] at hb
  rcases hb with hb | rfl | hb | rfl | hb
  · exact hword b (h.beforeBytes b hb)
  · decide
  · exact hbytes b (h.tagBytes b hb)
  · decide
  · exact hword b (h.afterBytes b hb)

theorem opens (h : TagLine before t after) {b : Byte} (hb : opensText b) (s : Bytes) :
    StartsIn opensText (before ++ b :: s) := by
  cases hbefore : before with
  | nil => exact ⟨b, s, rfl, hb⟩
  | cons d u =>
    have hfacts := lower_facts d (h.first d u hbefore)
    exact ⟨d, u ++ b :: s, rfl, hfacts.2.1, hfacts.2.2.2.2.2⟩

/-- The bracket of the tag is escaped when the tag ends a comment. -/
theorem embeddedHtml_comment (h : TagLine before t after) (hdashes : str "--" <:+ t) :
    ch '&' ∈ embeddedHtml (before ++ (ch '<' :: (t ++ ch '>' :: after))) ∧
      StartsIn opensText (embeddedHtml (before ++ (ch '<' :: (t ++ ch '>' :: after)))) ∧
      ∀ b ∈ embeddedHtml (before ++ (ch '<' :: (t ++ ch '>' :: after))),
        isInertByte b = true := by
  obtain ⟨hltB, hltT, hltA⟩ := h.not_mem (x := ch '<') (by decide)
  obtain ⟨hgtB, hgtT, hgtA⟩ := h.not_mem (x := ch '>') (by decide)
  obtain ⟨htlB, htlT, htlA⟩ := h.not_mem (x := ch '~') (by decide)
  have hne : ch '<' ≠ ch '>' := by decide
  have hexcl : (pat "<!%-%-").Misses (before ++ (ch '<' :: (t ++ ch '>' :: after))) :=
    .of_needs (x := ch '!') (by decide) (h.not_mem_line (by decide) (by decide) (by decide))
  have hclose : gsubStr (pat "%-%->") (str "--" ++ transToken)
      (before ++ (ch '<' :: (t ++ ch '>' :: after))) =
        before ++ (ch '<' :: (t ++ (transToken ++ after))) := by
    obtain ⟨u, rfl⟩ := hdashes
    have hsplit : before ++ (ch '<' :: (u ++ str "--" ++ ch '>' :: after)) =
        (before ++ ch '<' :: u) ++ (str "--" ++ ch '>' :: after) := by simp
    have hu : ch '>' ∉ u := fun hmem => hgtT (List.mem_append_left _ hmem)
    rw [hsplit, gsubStr_once rfl (by decide) (by decide) (by decide)
      (by simp [hgtB, hu, hne.symm]) hgtA]
    simp
  have hgt : ch '>' ∉ before ++ (ch '<' :: (t ++ (transToken ++ after))) := by
    simp [hgtB, hgtT, hgtA, hne.symm, show ch '>' ∉ transToken by decide]
  have hopens : (pat "(<<+)").Misses (before ++ (ch '<' :: (t ++ (transToken ++ after)))) :=
    .of_once (by decide) hltB (by simp [hltT, hltA, show ch '<' ∉ transToken by decide])
  have hcloses := Pattern.Misses.of_needs (p := pat "(>>+)") (x := ch '>') (by decide) hgt
  have hmark := Pattern.Misses.of_needs (p := pat "<nop>") (x := ch '>') (by decide) hgt
  have htag := Pattern.Misses.of_needs (p := pat "<(%S.-)>") (x := ch '>') (by decide) hgt
  have hlower : gsubStr (pat "<") (str "&lt;")
      (before ++ (ch '<' :: (t ++ (transToken ++ after)))) =
        before ++ (str "&lt;" ++ (t ++ (transToken ++ after))) := by
    rw [gsubStr_lt]
    exact escapeLt_one hltB (by simp [hltT, hltA, show ch '<' ∉ transToken by decide])
  have hgreater : (pat ">").Misses (before ++ (str "&lt;" ++ (t ++ (transToken ++ after)))) :=
    .of_needs (x := ch '>') (by decide) (by
      simp [hgtB, hgtT, hgtA, show ch '>' ∉ transToken by decide,
        show ch '>' ∉ str "&lt;" by decide])
  have htokens : (pat "~$~(%S.-)~$~").Misses
      (before ++ (str "&lt;" ++ (t ++ (transToken ++ after)))) := by
    have hsplit : before ++ (str "&lt;" ++ (t ++ (transToken ++ after))) =
        (before ++ (str "&lt;" ++ t)) ++ (transToken ++ after) := by simp
    rw [hsplit]
    exact tokenPattern_misses (by simp [htlB, htlT, show ch '~' ∉ str "&lt;" by decide]) htlA
  have hbytes : ∀ b ∈ before ++ (str "&lt;" ++ (t ++ (transToken ++ after))),
      isInertByte b = true ∧ b ≠ ch '!' := by
    have hmarks : ∀ b ∈ str "&lt;" ++ transToken, isInertByte b = true ∧ b ≠ ch '!' := by decide
    have hexclaim := h.not_mem (x := ch '!') (by decide)
    have hinert := h.inert
    intro b hb
    simp only [List.mem_append] at hb
    rcases hb with hb | hb | hb | hb | hb
    · exact ⟨hinert b (by simp [hb]), fun heq => hexclaim.1 (heq ▸ hb)⟩
    · exact hmarks b (by simp [hb])
    · exact ⟨hinert b (by simp [hb]), fun heq => hexclaim.2.1 (heq ▸ hb)⟩
    · exact hmarks b (by simp [hb])
    · exact ⟨hinert b (by simp [hb]), fun heq => hexclaim.2.2 (heq ▸ hb)⟩
  have hamp : ch '&' ∈ before ++ (str "&lt;" ++ (t ++ (transToken ++ after))) := by
    simp [show ch '&' ∈ str "&lt;" by decide]
  generalize hescaped : before ++ (str "&lt;" ++ (t ++ (transToken ++ after))) = escaped
    at hlower hgreater htokens hbytes hamp
  have hstart : StartsIn opensText escaped := by
    rw [← hescaped]
    exact h.opens (b := ch '&') (by decide) (str "lt;" ++ (t ++ (transToken ++ after)))
  have hexclaim : ∀ b ∈ gsubStr (pat "nopTOKEN") (str "<nop>") escaped, b ≠ ch '!' :=
    gsubStr_bytes rfl (by decide) fun b hb => (hbytes b hb).2
  have hcomment : (pat "~$~!%-%-").Misses (gsubStr (pat "nopTOKEN") (str "<nop>") escaped) :=
    .of_needs (x := ch '!') (by decide) fun hmem => hexclaim _ hmem rfl
  have hline : embeddedHtml (before ++ (ch '<' :: (t ++ ch '>' :: after))) =
      gsubStr (pat "%-%-~$~") (str "-->") (gsubStr (pat "nopTOKEN") (str "<nop>") escaped) := by
    simp only [gsubStr] at hclose hlower hcomment
    simp only [embeddedHtml, gsubStr]
    rw [replaceAll_misses hexcl, hclose, replaceAll_misses hopens, replaceAll_misses hcloses,
      replaceAll_misses hmark, replaceAll_misses htag, hlower, replaceAll_misses hgreater,
      replaceAll_misses htokens, replaceAll_misses hcomment]
  rw [hline]
  refine ⟨replaceAll_keeps (by decide) _ (replaceAll_keeps (by decide) _ hamp), ?_,
    gsubStr_bytes rfl (by decide) (gsubStr_bytes rfl (by decide) fun b hb => (hbytes b hb).1)⟩
  have hsplit : str "<nop>" = ch '<' :: str "nop>" := by decide
  have hnop : StartsIn opensText (gsubStr (pat "nopTOKEN") (str "<nop>") escaped) := by
    rw [hsplit]
    exact gsubStr_startsIn rfl (by decide) (by decide) hstart _
  obtain ⟨b, u, hb, hopens⟩ := hnop
  have hdash : singleMatch b (.cls (ch '-')) = false :=
    Bool.eq_false_iff.mpr fun hm => hopens.2.1 ((matchClass_literal (by decide) b).mp hm)
  rw [hb, gsubStr_head rfl (by decide) hdash]
  exact ⟨b, _, rfl, hopens⟩

end TagLine

/-! ### The steps after `embeddedHtml` -/

theorem embeddedUrls_startsIn {P : Byte → Prop} {s : Bytes} (cls : FormatterClass)
    (h : StartsIn P s) : StartsIn P (embeddedUrls cls s) := by
  rw [embeddedUrls_eq]
  refine replaceAll_startsIn (by decide) h fun m hm => ?_
  obtain ⟨url⟩ := matchHere_url hm
  obtain ⟨b, t, rfl, hb⟩ := h
  obtain ⟨hbefore, _⟩ := List.cons.inj url.subject
  rw [url.text]
  exact ⟨_, _, rfl, hbefore ▸ hb⟩

theorem entities_startsIn {s : Bytes} (h : StartsIn opensText s) :
    StartsIn opensText (entities s) := by
  have hnamed : transToken ++ str "%1;" = ch '~' :: str "$~%1;" := by decide
  have hnumber : transToken ++ str "#%1;" = ch '~' :: str "$~#%1;" := by decide
  have hamp : str "&amp;" = ch '&' :: str "amp;" := by decide
  have htoken : str "&" = ch '&' :: [] := by decide
  rw [entities, hnamed, hnumber, hamp, htoken]
  exact gsubStr_startsIn rfl (by decide) (by decide) (gsubStr_startsIn rfl (by decide) (by decide)
    (gsubStr_startsIn rfl (by decide) (by decide)
      (gsubStr_startsIn rfl (by decide) (by decide) h _) _) _) _

/-- An ampersand becomes an ampersand, through a token or an entity. -/
theorem entities_amp {s : Bytes} (h : ch '&' ∈ s) : ch '&' ∈ entities s := by
  have hpass : ∀ (p : Pattern) (repl s : Bytes), p.anchor = false →
      (∀ m, ch '&' ∈ addS m repl ∨ str "~$~" <:+: addS m repl) →
      ch '&' ∈ s ∨ str "~$~" <:+: s →
      ch '&' ∈ gsubStr p repl s ∨ str "~$~" <:+: gsubStr p repl s := by
    rintro ⟨anchor, is⟩ repl s rfl hrepl hs
    by_cases hmiss : (⟨false, is⟩ : Pattern).Misses s
    · rwa [gsubStr, replaceAll_misses hmiss]
    · obtain ⟨m, hm⟩ := exists_hit hmiss
      have hwithin : addS m repl <:+: gsubStr ⟨false, is⟩ repl s := by
        obtain ⟨before, after, hscan⟩ := List.append_of_mem hm
        rw [gsubStr, replaceAll, scan, if_neg (by simp), hscan, List.flatMap_append,
          List.flatMap_cons]
        exact ⟨_, _, List.append_assoc ..⟩
      exact (hrepl m).imp (fun h => hwithin.subset h) fun h => h.trans hwithin
  have htoken : ∀ repl : Bytes, ∀ m, str "~$~" <:+: addS m (transToken ++ repl) := by
    intro repl m
    rw [addS_append m (by decide), addS_plain m (by decide)]
    exact (List.prefix_append _ _).isInfix
  have hnamed := hpass (pat "&(%w%w-);") (transToken ++ str "%1;") s rfl
    (fun m => .inr (htoken _ m)) (.inl h)
  have hnumber := hpass (pat "&#(%d+);") (transToken ++ str "#%1;") _ rfl
    (fun m => .inr (htoken _ m)) hnamed
  have hamp := hpass (pat "&") (str "&amp;") _ rfl
    (fun m => .inl (by rw [addS_plain m (by decide)]; decide)) hnumber
  rcases hamp with hamp | hamp
  · exact replaceAll_keeps (by decide) _ hamp
  · rw [entities, token_pattern]
    exact gsubStr_literal_mem (by decide) (by decide) hamp

theorem inert_iff (b : Byte) : isInertByte b = true ↔ b ∉ str "[%+|" ∧ b ≠ 0 := by
  simp [isInertByte]

theorem embeddedUrls_inert {s : Bytes} (cls : FormatterClass)
    (h : ∀ b ∈ s, isInertByte b = true) : ∀ b ∈ embeddedUrls cls s, isInertByte b = true := by
  have hmarks : ∀ b ∈ str "<A href=\":\"></A>", isInertByte b = true := by decide
  intro b hb
  by_contra hinert
  exact not_mem_embeddedUrls (fun hmem => hinert (hmarks b hmem)) (fun hmem => hinert (h b hmem))
    cls hb

theorem entities_inert {s : Bytes} (h : ∀ b ∈ s, isInertByte b = true) :
    ∀ b ∈ entities s, isInertByte b = true :=
  gsubStr_bytes rfl (by decide) (gsubStr_bytes rfl (by decide)
    (gsubStr_bytes rfl (by decide) (gsubStr_bytes rfl (by decide) h)))

/-- A text that is no block goes through the styles and the automatic links. -/
theorem formatWikiLine_inert {l : Bytes} (hstart : StartsIn opensText l)
    (hbytes : ∀ b ∈ l, isInertByte b = true)
    (hl : entities (embeddedUrls env.cls (embeddedHtml (blockQuote line))) = l) :
    ∃ st', st'.insideNoAutoLink = st.insideNoAutoLink ∧
      (formatWikiLine env line st).1 =
        (autoLinks env (emphasis (str " " ++ l ++ str " ")) st').1 := by
  have hno : ∀ x, isInertByte x = false → x ∉ l := fun x hx => not_mem_of_bytes hbytes hx
  have hblock : NoBlock l := by
    obtain ⟨b, t, rfl, hb⟩ := hstart
    refine ⟨List.cons_ne_nil _ _, fun d u hd => ?_, hno _ (by decide), hno _ (by decide)⟩
    obtain ⟨rfl, _⟩ := List.cons.inj hd
    exact hb
  have hstyled : ∀ b ∈ emphasis (str " " ++ l ++ str " "), isInertByte b = true := by
    refine emphasis_bytes (by decide +kernel) fun b hb => ?_
    have hblank : ∀ b ∈ str " ", isInertByte b = true := by decide
    rcases List.mem_append.mp hb with hb | hb
    · exact (List.mem_append.mp hb).elim (hblank b) (hbytes b)
    · exact hblank b hb
  obtain ⟨hline, types, elements, result, hst⟩ := hblock.styled st hl
  rw [formatWikiLine_styled]
  generalize styledLine env.cls line st = styled at hline hst
  obtain ⟨padded, st'⟩ := styled
  generalize emphasis (str " " ++ l ++ str " ") = text at hline hstyled ⊢
  obtain rfl : padded = text := hline
  refine ⟨st', by rw [show st' = _ from hst], ?_⟩
  simp only [hyperLinks_plain (not_mem_of_bytes hstyled (x := ch '[') (by decide)),
    percentVariables_plain (percent_autoLinks (not_mem_of_bytes hstyled (x := ch '%') (by decide))
      st')]

/-! ### The line with the tag -/

namespace TagLine

/-- The text of the line after its URLs, when the tag does not end a comment. -/
theorem text (h : TagLine before t after) (hdashes : ¬ str "--" <:+ t) (cls : FormatterClass)
    {t' : Bytes} (ht : gsubStr (pat "nopTOKEN") (str "<nop>") t = t') :
    entities (embeddedUrls cls (embeddedHtml (blockQuote
        (before ++ (ch '<' :: (t ++ ch '>' :: after)))))) =
        embeddedUrls cls (before ++ (ch '<' :: (t' ++ ch '>' :: after))) ∧
      StartsIn opensText (embeddedUrls cls (before ++ (ch '<' :: (t' ++ ch '>' :: after)))) ∧
      ∀ b ∈ embeddedUrls cls (before ++ (ch '<' :: (t' ++ ch '>' :: after))),
        isInertByte b = true := by
  have hbytes : ∀ {P : Byte → Prop}, (∀ b ∈ plainBytes (str "<nop>"), P b) →
      (∀ b ∈ before ++ (ch '<' :: (t ++ ch '>' :: after)), P b) →
      ∀ b ∈ before ++ (ch '<' :: (t' ++ ch '>' :: after)), P b := by
    intro P hmark hline
    rw [← ht, ← h.nopTOKEN_eq]
    exact gsubStr_bytes rfl hmark hline
  have hno : ∀ x, x ∉ plainBytes (str "<nop>") → isTagByte x = false → x ≠ ch '<' → x ≠ ch '>' →
      x ∉ str "<A href=\":\"></A>" →
      x ∉ embeddedUrls cls (before ++ (ch '<' :: (t' ++ ch '>' :: after))) := by
    intro x hmark hx hlt hgt hmarks
    refine not_mem_embeddedUrls hmarks (fun hmem => ?_) cls
    exact hbytes (P := (· ≠ x)) (fun b hb heq => hmark (heq ▸ hb))
      (fun b hb heq => h.not_mem_line hx hlt hgt (heq ▸ hb)) _ hmem rfl
  rw [h.blockQuote_eq, h.embeddedHtml_eq hdashes, ht]
  refine ⟨entities_plain (hno _ (by decide) (by decide) (by decide) (by decide) (by decide))
    (hno _ (by decide) (by decide) (by decide) (by decide) (by decide)), ?_, ?_⟩
  · exact embeddedUrls_startsIn cls (h.opens (by decide) _)
  · exact embeddedUrls_inert cls (hbytes (by decide) h.inert)

end TagLine

/-- The tag ends no comment and holds no `nopTOKEN`; in the line no URL with a known scheme, no
style and no WikiWord is found. -/
structure KeepsTag (noAutoLink : Bool) (t line : Bytes) : Prop where
  dashes : ¬ str "--" <:+ t
  mark : ¬ str "nopTOKEN" <:+: t
  urls : linksUrl line = false
  styles : ∀ rule ∈ emphasisRules, found rule.1 (str " " ++ line ++ str " ") = false
  words : noAutoLink = true ∨ found plainPattern (str " " ++ line ++ str " ") = false

theorem misses_of_not_found {p : Pattern} {s : Bytes} (h : found p s = false) : p.Misses s :=
  Classical.not_not.mp fun hmiss => by
    rw [found_iff_not_misses.mpr hmiss] at h
    cases h

theorem nopTOKEN_same (h : ¬ str "nopTOKEN" <:+: t) :
    gsubStr (pat "nopTOKEN") (str "<nop>") t = t := by
  rw [nopTOKEN_pattern]
  exact replaceAll_misses (.of_absent h) _

namespace TagLine

theorem settled (h : TagLine before t after) {noAutoLink : Bool}
    (hkeeps : KeepsTag noAutoLink t (before ++ (ch '<' :: (t ++ ch '>' :: after)))) :
    Settled noAutoLink (before ++ (ch '<' :: (t ++ ch '>' :: after))) := by
  obtain ⟨_, hstart, hinert⟩ := h.text hkeeps.dashes .wiki (nopTOKEN_same hkeeps.mark)
  rw [embeddedUrls_unknown hkeeps.urls] at hstart hinert
  have hno : ∀ x, isInertByte x = false → x ∉ before ++ (ch '<' :: (t ++ ch '>' :: after)) :=
    fun x hx => not_mem_of_bytes hinert hx
  refine ⟨⟨by simp, fun b u hb => ?_, hno _ (by decide), hno _ (by decide)⟩, hno _ (by decide),
    hno _ (by decide), fun rule hrule => misses_of_not_found (hkeeps.styles rule hrule),
    hkeeps.words.imp_right misses_of_not_found⟩
  obtain ⟨d, v, hd, hopens⟩ := hstart
  rw [hb] at hd
  obtain ⟨rfl, _⟩ := List.cons.inj hd
  exact hopens

/-- What is in the text before the styles is in the output as often. -/
theorem count_le (h : TagLine before t after) (hcls : env.cls = .wiki)
    {l : Bytes} (hstart : StartsIn opensText l) (hinert : ∀ b ∈ l, isInertByte b = true)
    (hl : entities (embeddedUrls .wiki (embeddedHtml (blockQuote
      (before ++ (ch '<' :: (t ++ ch '>' :: after)))))) = l)
    (hout : (formatWikiLine env (before ++ (ch '<' :: (t ++ ch '>' :: after))) st).1 =
      str " " ++ (before ++ (ch '<' :: (t ++ ch '>' :: after))) ++ str " ") :
    l.count (ch '<') ≤ 1 ∧ ch '&' ∉ l := by
  obtain ⟨hltB, hltT, hltA⟩ := h.not_mem (x := ch '<') (by decide)
  have hamp := h.not_mem_line (x := ch '&') (by decide) (by decide) (by decide)
  rw [← hcls] at hl
  have hinertLine : ∃ st', st'.insideNoAutoLink = st.insideNoAutoLink ∧
      (formatWikiLine env (before ++ (ch '<' :: (t ++ ch '>' :: after))) st).1 =
        (autoLinks env (emphasis (str " " ++ l ++ str " ")) st').1 :=
    formatWikiLine_inert hstart hinert hl
  obtain ⟨st', _, hline⟩ := hinertLine
  rw [hline] at hout
  have hgrows : ∀ x, (∀ r ∈ styleRules, x ∉ r.mark) →
      (∀ i ∈ plainPattern.items, i.takes x = false) →
      (∀ i ∈ anchoredPattern.items, i.takes x = false) →
      l.count x ≤
        (str " " ++ (before ++ (ch '<' :: (t ++ ch '>' :: after))) ++ str " ").count x := by
    intro x hmarks hplain hanchored
    rw [← hout]
    refine Nat.le_trans ?_ (autoLinks_count_le hplain hanchored _ st')
    refine Nat.le_trans ?_ (emphasis_count_le hmarks _)
    rw [List.count_append, List.count_append]
    omega
  constructor
  · have hlt := hgrows (ch '<') (by decide +kernel) (by decide) (by decide)
    have hone : (str " " ++ (before ++ (ch '<' :: (t ++ ch '>' :: after))) ++ str " ").count
        (ch '<') = 1 := by
      simp [List.count_append, List.count_eq_zero.mpr hltB,
        List.count_eq_zero.mpr hltT, List.count_eq_zero.mpr hltA,
        show (str " ").count (ch '<') = 0 by decide, show ch '>' ≠ ch '<' by decide]
    omega
  · have hle := hgrows (ch '&') (by decide +kernel) (by decide) (by decide)
    have hzero : (str " " ++ (before ++ (ch '<' :: (t ++ ch '>' :: after))) ++ str " ").count
        (ch '&') = 0 := by
      rw [List.count_append, List.count_append, List.count_eq_zero.mpr hamp]
      decide
    exact List.count_eq_zero.mp (by omega)

/-- A line that comes out as it is keeps its tag. -/
theorem keeps (h : TagLine before t after) (hcls : env.cls = .wiki)
    (hout : (formatWikiLine env (before ++ (ch '<' :: (t ++ ch '>' :: after))) st).1 =
      str " " ++ (before ++ (ch '<' :: (t ++ ch '>' :: after))) ++ str " ") :
    KeepsTag st.insideNoAutoLink t (before ++ (ch '<' :: (t ++ ch '>' :: after))) := by
  have hdashes : ¬ str "--" <:+ t := by
    intro hdashes
    obtain ⟨hamp, hstart, hinert⟩ := h.embeddedHtml_comment hdashes
    have hurls := List.count_pos_iff.mp (Nat.lt_of_lt_of_le (List.count_pos_iff.mpr hamp)
      (embeddedUrls_count_le .wiki (ch '&') _))
    refine (h.count_le hcls (entities_startsIn (embeddedUrls_startsIn .wiki hstart))
      (entities_inert (embeddedUrls_inert .wiki hinert)) ?_ hout).2 (entities_amp hurls)
    rw [h.blockQuote_eq]
  have hcount : ∀ {t' : Bytes}, gsubStr (pat "nopTOKEN") (str "<nop>") t = t' →
      (embeddedUrls .wiki (before ++ (ch '<' :: (t' ++ ch '>' :: after)))).count (ch '<') ≤ 1 := by
    intro t' ht'
    obtain ⟨htext, hstart, hinert⟩ := h.text hdashes .wiki ht'
    exact (h.count_le hcls hstart hinert htext hout).1
  have hmark : ¬ str "nopTOKEN" <:+: t := by
    intro hwithin
    have hlt : ch '<' ∈ gsubStr (pat "nopTOKEN") (str "<nop>") t := by
      rw [nopTOKEN_pattern]
      exact gsubStr_literal_mem (by decide) (by decide) hwithin
    have hle := Nat.le_trans (embeddedUrls_count_le .wiki (ch '<') _) (hcount rfl)
    have hpos := List.count_pos_iff.mpr hlt
    rw [List.count_append, List.count_cons_self, List.count_append] at hle
    omega
  have hone : ∀ s : Bytes, 1 ≤ (before ++ (ch '<' :: s)).count (ch '<') := by
    intro s
    rw [List.count_append, List.count_cons_self]
    omega
  have hurls : linksUrl (before ++ (ch '<' :: (t ++ ch '>' :: after))) = false := by
    refine Bool.eq_false_iff.mpr fun hlinks => ?_
    have hlt := embeddedUrls_count_lt hlinks
    have hle := hcount (nopTOKEN_same hmark)
    have hline := hone (t ++ ch '>' :: after)
    omega
  -- now the text before the styles is the line itself
  obtain ⟨htext, hstart, hinert⟩ := h.text hdashes .wiki (nopTOKEN_same hmark)
  rw [embeddedUrls_unknown hurls] at htext hstart hinert
  rw [← hcls] at htext
  have hlater : ∃ st', st'.insideNoAutoLink = st.insideNoAutoLink ∧
      (formatWikiLine env (before ++ (ch '<' :: (t ++ ch '>' :: after))) st).1 = (autoLinks env
        (emphasis (str " " ++ (before ++ (ch '<' :: (t ++ ch '>' :: after))) ++ str " ")) st').1 :=
    formatWikiLine_inert hstart hinert htext
  obtain ⟨st', hst, hline⟩ := hlater
  rw [hout] at hline
  generalize hpadded : str " " ++ (before ++ (ch '<' :: (t ++ ch '>' :: after))) ++ str " " = padded
    at hline
  have hstyles : ∀ rule ∈ emphasisRules, found rule.1 padded = false := by
    intro rule hrule
    refine Bool.eq_false_iff.mpr fun hfound => ?_
    have hlt := emphasis_count_lt ⟨rule, hrule, hfound⟩
    have hle : (emphasis padded).count (ch '<') ≤
        (autoLinks env (emphasis padded) st').1.count (ch '<') :=
      autoLinks_count_le (by decide) (by decide) (emphasis padded) st'
    rw [← hline] at hle
    omega
  refine ⟨hdashes, hmark, hurls, by rwa [hpadded], ?_⟩
  rw [hpadded]
  by_contra hwords
  obtain ⟨hno, hfound⟩ := not_or.mp hwords
  have hsame : emphasis padded = padded :=
    emphasis_misses fun rule hrule => misses_of_not_found (hstyles rule hrule)
  rw [hsame] at hline
  have hlt : padded.count (ch '<') < (autoLinks env padded st').1.count (ch '<') := by
    refine autoLinks_count_lt hcls ?_ (Bool.not_eq_false _ ▸ hfound)
    rw [hst]
    exact Bool.not_eq_true _ ▸ hno
  rw [← hline] at hlt
  omega

end TagLine

/-- The line with a tag comes out as it is exactly when nothing in the tag is taken for something
else; then the tag is in the output byte for byte. -/
theorem rawTag_kept_iff (h : TagLine before t after) (hcls : env.cls = .wiki)
    (st : FormatterState) :
    ((formatWikiLine env (before ++ rawTag t ++ after) st).1 =
        str " " ++ (before ++ rawTag t ++ after) ++ str " " ↔
      KeepsTag st.insideNoAutoLink t (before ++ rawTag t ++ after)) ∧
    (KeepsTag st.insideNoAutoLink t (before ++ rawTag t ++ after) →
      rawTag t <:+: (formatWikiLine env (before ++ rawTag t ++ after) st).1) := by
  have hline : before ++ rawTag t ++ after = before ++ (ch '<' :: (t ++ ch '>' :: after)) := by
    simp [rawTag_eq]
  have hkept : KeepsTag st.insideNoAutoLink t (before ++ (ch '<' :: (t ++ ch '>' :: after))) →
      (formatWikiLine env (before ++ (ch '<' :: (t ++ ch '>' :: after))) st).1 =
        str " " ++ (before ++ (ch '<' :: (t ++ ch '>' :: after))) ++ str " " := by
    intro hkeeps
    obtain ⟨htext, _, _⟩ := h.text hkeeps.dashes .wiki (nopTOKEN_same hkeeps.mark)
    rw [embeddedUrls_unknown hkeeps.urls, ← hcls] at htext
    exact formatWikiLine_settled (h.settled hkeeps) htext
  rw [hline]
  refine ⟨⟨h.keeps hcls, hkept⟩, fun hkeeps => ?_⟩
  rw [hkept hkeeps]
  refine ⟨str " " ++ before, after ++ str " ", ?_⟩
  simp [rawTag_eq]

theorem rawTag_kept_bold :
    (formatWikiLine (emptyEnv .wiki) (str "see <b id=\"x1\"> now") {}).1 =
        str " see <b id=\"x1\"> now " ∧
      rawTag (str "b id=\"x1\"") <:+:
        (formatWikiLine (emptyEnv .wiki) (str "see <b id=\"x1\"> now") {}).1 := by
  have hline : TagLine (str "see ") (str "b id=\"x1\"") (str " now") := by
    refine ⟨by decide, fun b u hb => ?_, ⟨ch 'b', str " id=\"x1\"", by decide, by decide⟩,
      by decide, by decide⟩
    obtain ⟨rfl, _⟩ := List.cons.inj hb
    decide
  have hkeeps : KeepsTag false (str "b id=\"x1\"")
      (str "see " ++ rawTag (str "b id=\"x1\"") ++ str " now") :=
    ⟨by decide +kernel, by decide +kernel, by decide +kernel, by decide +kernel,
      .inr (by decide +kernel)⟩
  have hcls : (emptyEnv .wiki).cls = .wiki := rfl
  obtain ⟨hiff, hwithin⟩ := rawTag_kept_iff hline hcls {}
  exact ⟨hiff.mpr hkeeps, hwithin hkeeps⟩

/-- The URL of an attribute is put into an element of its own. -/
theorem rawTag_url_linked :
    TagLine (str "see ") (str "a href=\"http://a.b\"") (str " now") ∧
      (formatWikiLine (emptyEnv .wiki) (str "see <a href=\"http://a.b\"> now") {}).1 =
        str " see <a href=\"<A href=\"http://a.b\"\">http://a.b\"</A>> now " ∧
      ¬ rawTag (str "a href=\"http://a.b\"") <:+:
        (formatWikiLine (emptyEnv .wiki) (str "see <a href=\"http://a.b\"> now") {}).1 := by
  have hline : (formatWikiLine (emptyEnv .wiki) (str "see <a href=\"http://a.b\"> now") {}).1 =
      str " see <a href=\"<A href=\"http://a.b\"\">http://a.b\"</A>> now " := by
    decide +kernel
  refine ⟨⟨by decide, fun b u hb => ?_, ⟨ch 'a', str " href=\"http://a.b\"", by decide, by decide⟩,
    by decide, by decide⟩, hline, ?_⟩
  · obtain ⟨rfl, _⟩ := List.cons.inj hb
    decide
  · rw [hline]
    decide +kernel

end MoonWiki
