import MoonWiki.RawTags

/-! Block quotes, and the brackets next to their tags. -/
namespace MoonWiki
open Lua

variable {t u v x q g l : Bytes} {env : FormatterEnv} {st : FormatterState}

/-! ### Quoted texts -/

/-- Lower-case letters, digits, blanks and brackets. -/
def isQuoteByte (b : Byte) : Bool := isLower b || isDigit b || isSpace b || (str "<>").contains b

/-- A text without a tag: no closing bracket comes after an opening one. -/
structure QuoteText (t : Bytes) : Prop where
  bytes : ∀ b ∈ t, isQuoteByte b = true
  noTag : ∀ u v, t = u ++ ch '<' :: v → ch '>' ∉ v

def escapeMark (b : Byte) : Bytes :=
  if b = ch '<' then str "&lt;" else if b = ch '>' then str "&gt;" else [b]

/-- The brackets of a text escaped. -/
def escapeMarks (s : Bytes) : Bytes := s.flatMap escapeMark

theorem escapeMarks_append (u v : Bytes) : escapeMarks (u ++ v) = escapeMarks u ++ escapeMarks v :=
  List.flatMap_append

theorem escapeMarks_same (hlt : ch '<' ∉ v) (hgt : ch '>' ∉ v) : escapeMarks v = v := by
  have hcopy : ∀ b ∈ v, escapeMark b = [b] := by
    intro b hb
    rw [escapeMark, if_neg, if_neg]
    · exact fun h => hgt (h ▸ hb)
    · exact fun h => hlt (h ▸ hb)
  rw [escapeMarks, List.flatMap_congr hcopy]
  exact List.flatMap_singleton' v

theorem escapeMarks_absent {b : Byte} (hb : b ∉ str "&lt;&gt;") (h : b ∉ v) :
    b ∉ escapeMarks v := by
  have hmarks : str "&lt;" ⊆ str "&lt;&gt;" ∧ str "&gt;" ⊆ str "&lt;&gt;" := by decide
  intro hmem
  obtain ⟨d, hd, hmem⟩ := List.mem_flatMap.mp hmem
  rw [escapeMark] at hmem
  split_ifs at hmem
  · exact hb (hmarks.1 hmem)
  · exact hb (hmarks.2 hmem)
  · exact h (List.mem_singleton.mp hmem ▸ hd)

theorem escapeMarks_lt (v : Bytes) : ch '<' ∉ escapeMarks v := by
  intro hmem
  obtain ⟨d, _, hmem⟩ := List.mem_flatMap.mp hmem
  rw [escapeMark] at hmem
  split_ifs at hmem with hlt
  · exact absurd hmem (by decide)
  · exact absurd hmem (by decide)
  · exact hlt (List.mem_singleton.mp hmem).symm

theorem escapeMarks_nil_iff : escapeMarks v = [] ↔ v = [] := by
  cases v with
  | nil => simp [escapeMarks]
  | cons b v =>
    have hmark : escapeMark b ≠ [] := by
      rw [escapeMark]
      split_ifs <;> simp [show str "&lt;" ≠ [] by decide, show str "&gt;" ≠ [] by decide]
    have hcons : escapeMarks (b :: v) = escapeMark b ++ escapeMarks v := rfl
    simp [hcons, hmark]

/-- The two passes that escape what is left of the brackets. -/
theorem escapeMarks_eq (s : Bytes) :
    gsubStr (pat ">") (str "&gt;") (gsubStr (pat "<") (str "&lt;") s) = escapeMarks s := by
  have hlt : pat "<" = ⟨false, [.single (.lit (ch '<')) .one]⟩ := by decide
  have hgt : pat ">" = ⟨false, [.single (.lit (ch '>')) .one]⟩ := by decide
  have hmark : ∀ b c : Byte, singleMatch b (.lit c) = decide (b = c) := fun b c => by
    rw [singleMatch]
    exact decide_eq_decide.mpr eq_comm
  rw [hlt, hgt, gsubStr_single _ (by decide), gsubStr_single _ (by decide), List.flatMap_assoc,
    escapeMarks]
  congr 1
  funext b
  simp only [hmark, decide_eq_true_eq, escapeMark]
  by_cases hb : b = ch '<'
  · rw [if_pos hb, if_pos hb]
    decide
  · rw [if_neg hb, if_neg hb, List.flatMap_singleton]

/-- Every bracket gives one escape. -/
theorem count_escapeMarks (hamp : ch '&' ∉ v) :
    (escapeMarks v).count (ch '&') = v.count (ch '<') + v.count (ch '>') := by
  induction v with
  | nil => rfl
  | cons b v ih =>
    have hcons : escapeMarks (b :: v) = escapeMark b ++ escapeMarks v := rfl
    have hb : b ≠ ch '&' := fun h => hamp (by simp [h])
    have hmark : (escapeMark b).count (ch '&') = [b].count (ch '<') + [b].count (ch '>') := by
      rw [escapeMark]
      split_ifs with hlt hgt
      · rw [hlt]
        decide
      · rw [hgt]
        decide
      · simp [hb, hlt, hgt]
    have hsplit : ∀ x, (b :: v).count x = [b].count x + v.count x := fun x => by
      rw [← List.count_append, List.singleton_append]
    rw [hcons, List.count_append, hmark, ih fun h => hamp (List.mem_cons_of_mem _ h), hsplit,
      hsplit]
    omega

/-- A text whose ampersands all belong to escaped brackets. -/
inductive Escaped : Bytes → Prop
  | nil : Escaped []
  | copy {b : Byte} {s : Bytes} : b ≠ ch '&' → b ≠ ch '~' → Escaped s → Escaped (b :: s)
  | mark {b : Byte} {s : Bytes} : b ∈ str "lg" → Escaped s →
      Escaped (ch '&' :: b :: ch 't' :: ch ';' :: s)

theorem Escaped.append (hu : Escaped u) (hv : Escaped v) : Escaped (u ++ v) := by
  induction hu with
  | nil => exact hv
  | copy hb hb' _ ih => exact .copy hb hb' ih
  | mark hb _ ih => exact .mark hb ih

theorem Escaped.of_plain (hamp : ch '&' ∉ v) (htilde : ch '~' ∉ v) : Escaped v := by
  induction v with
  | nil => exact .nil
  | cons b v ih =>
    exact .copy (fun h => hamp (by simp [h])) (fun h => htilde (by simp [h]))
      (ih (fun h => hamp (List.mem_cons_of_mem _ h)) fun h => htilde (List.mem_cons_of_mem _ h))

theorem Escaped.marks (h : Escaped v) : Escaped (escapeMarks v) := by
  induction h with
  | nil => exact .nil
  | @copy b s hb hb' _ ih =>
    have hcons : escapeMarks (b :: s) = escapeMark b ++ escapeMarks s := rfl
    rw [hcons, escapeMark]
    split_ifs
    · exact .mark (by decide) ih
    · exact .mark (by decide) ih
    · exact .copy hb hb' ih
  | @mark b s hb _ ih =>
    have hother : escapeMark b = [b] := by
      have hmarks : ∀ b ∈ str "lg", escapeMark b = [b] := by decide
      exact hmarks b hb
    have hcons : escapeMarks (ch '&' :: b :: ch 't' :: ch ';' :: s) =
        ch '&' :: (escapeMark b ++ ch 't' :: ch ';' :: escapeMarks s) := rfl
    rw [hcons, hother]
    exact .mark hb ih

theorem Escaped.runs {c : Byte} {r : Bytes} (hr : Escaped r) (hc : Escaped [c])
    (hamp : ch '&' ∉ v) (htilde : ch '~' ∉ v) : Escaped (gsubRuns c r v) := by
  have hrest : ∀ {u v : Bytes} {b : Byte}, b ∉ u ++ v → b ∉ v :=
    fun h hmem => h (List.mem_append_right _ hmem)
  induction runView c v with
  | nil => rw [gsubRuns_nil]; exact .nil
  | @other b t hb _ ih =>
    rw [gsubRuns_other hb]
    exact .copy (fun h => hamp (by simp [h])) (fun h => htilde (by simp [h]))
      (ih (hrest (u := [b]) hamp) (hrest (u := [b]) htilde))
  | one hv _ ih =>
    rw [gsubRuns_one hv]
    exact hc.append (ih (hrest (u := [c]) hamp) (hrest (u := [c]) htilde))
  | many n hv _ ih =>
    rw [gsubRuns_run n hv]
    exact hr.append (ih (hrest hamp) (hrest htilde))

/-- A bracket stands between two escaped texts. -/
theorem Escaped.around (h : Escaped v) : ∀ {x q : Bytes}, v = x ++ ch '<' :: q →
    Escaped x ∧ Escaped q := by
  induction h with
  | nil => exact fun hv => absurd hv (by simp)
  | @copy b s hb hb' hs ih =>
    intro x q hv
    cases x with
    | nil =>
      obtain ⟨_, rfl⟩ := List.cons.inj hv
      exact ⟨.nil, hs⟩
    | cons d x =>
      obtain ⟨rfl, hrest⟩ := List.cons.inj hv
      obtain ⟨hx, hq⟩ := ih hrest
      exact ⟨.copy hb hb' hx, hq⟩
  | @mark b s hb _ ih =>
    intro x q hv
    have hlt : ∀ b ∈ str "lg", b ≠ ch '<' := by decide
    rcases x with _ | ⟨d, _ | ⟨e, _ | ⟨f, _ | ⟨k, x⟩⟩⟩⟩
    · exact absurd (List.cons.inj hv).1 (by decide)
    · exact absurd (List.cons.inj (List.cons.inj hv).2).1 (hlt b hb)
    · exact absurd (List.cons.inj (List.cons.inj (List.cons.inj hv).2).2).1 (by decide)
    · exact absurd (List.cons.inj (List.cons.inj (List.cons.inj (List.cons.inj hv).2).2).2).1
        (by decide)
    · simp only [List.cons_append, List.cons.injEq] at hv
      obtain ⟨rfl, rfl, rfl, rfl, hrest⟩ := hv
      obtain ⟨hx, hq⟩ := ih hrest
      exact ⟨.mark hb hx, hq⟩

/-- The marks that stand for ampersands. -/
def tokenByte (b : Byte) : Bytes := if b = ch '&' then transToken else [b]

theorem Escaped.named (h : Escaped v) :
    gsubStr (pat "&(%w%w-);") (transToken ++ str "%1;") v = v.flatMap tokenByte := by
  have hfirst : headSingle namedItems = some (.lit (ch '&')) := by decide
  rw [named_pattern, gsubStr]
  induction h with
  | nil => decide
  | @copy b s hb _ _ ih =>
    have hmiss : matchHere namedItems (b :: s) = none := matchHere_head hfirst fun d t hd => by
      obtain ⟨rfl, _⟩ := List.cons.inj hd
      exact beq_false_of_ne hb.symm
    rw [replaceAll_miss hmiss, ih, List.flatMap_cons, tokenByte, if_neg hb]
    rfl
  | @mark b s hb _ ih =>
    have hletter : isAlnum b = true := (by decide : ∀ b ∈ str "lg", isAlnum b = true) b hb
    have hother : tokenByte b = [b] := if_neg (ne_of_test hletter (by decide))
    have hadd : addS ⟨[ch '&', b, ch 't', ch ';'], [[b, ch 't']], s⟩ (transToken ++ str "%1;") =
        transToken ++ [b, ch 't', ch ';'] := by
      rw [show transToken ++ str "%1;" = [126, 36, 126, 37, 49, 59] by decide,
        show transToken = [126, 36, 126] by decide]
      simp [addS, ch, isDigit]
    rw [replaceAll_hit (matchHere_named hletter (by decide) s) (List.cons_ne_nil _ _), ih, hadd]
    simp only [List.flatMap_cons, hother]
    rfl

theorem token_back (htilde : ch '~' ∉ v) :
    gsubStr (pat "~$~") (str "&") (v.flatMap tokenByte) = v := by
  induction v with
  | nil => decide
  | cons b v ih =>
    have hrest := ih fun h => htilde (List.mem_cons_of_mem _ h)
    rw [List.flatMap_cons, tokenByte]
    split_ifs with hb
    · rw [show transToken = str "~$~" by rfl, token_hit, hrest, hb]
    · have hb' : ch '~' ∉ [b] := fun h => htilde (by rw [List.mem_singleton.mp h]; simp)
      rw [token_run hb', hrest]
      rfl

theorem Escaped.not_tilde (h : Escaped v) : ch '~' ∉ v := by
  induction h with
  | nil => simp
  | copy _ hb _ ih => simp [ih, hb.symm]
  | @mark b _ hb _ ih =>
    have hb' : ch '~' ≠ b := fun h => absurd (h ▸ hb) (by decide)
    have hmarks : ch '~' ≠ ch '&' ∧ ch '~' ≠ ch 't' ∧ ch '~' ≠ ch ';' := by decide
    simp [ih, hb', hmarks]

/-- Escaped brackets are entities, and stay so. -/
theorem Escaped.entities_eq (h : Escaped v) : entities v = v := by
  have hamp : ch '&' ∉ v.flatMap tokenByte := by
    intro hmem
    obtain ⟨b, _, hmem⟩ := List.mem_flatMap.mp hmem
    rw [tokenByte] at hmem
    split_ifs at hmem with hb
    · exact absurd hmem (by decide)
    · exact hb (List.mem_singleton.mp hmem).symm
  have hnumber := Pattern.Misses.of_needs (p := pat "&#(%d+);") (x := ch '&') (by decide) hamp
  have hmark := Pattern.Misses.of_needs (p := pat "&") (x := ch '&') (by decide) hamp
  have hnamed := h.named
  have hback := token_back h.not_tilde
  simp only [gsubStr] at hnamed hback
  simp only [entities, gsubStr]
  rw [hnamed, replaceAll_misses hnumber, replaceAll_misses hmark, hback]

/-! ### The line with its tags -/

theorem blockQuote_eq (t : Bytes) :
    blockQuote (ch '>' :: t) = str "<CITE>" ++ (t ++ str "</CITE><BR>") := by
  have hpat : pat "^>(.*)$" = ⟨true, [.single (.lit (ch '>')) .one, .startCapture,
      .single .any .star, .endCapture, .eos]⟩ := by decide
  have hrepl : htk "CITE" [] [str "%1"] ++ htk "BR" [] [] = str "<CITE>%1</CITE><BR>" := by decide
  have hd : doMatch [.single (.lit (ch '>')) .one, .startCapture, .single .any .star, .endCapture,
      .eos] [] ((ch '>' :: t) ++ []) = some ([], [.done t]) := by
    rw [List.cons_append, doMatch_one (by decide)]
    exact doMatch_capture_star (u := t) (v := []) (fun _ _ => rfl) (fun b t h => by cases h) rfl
  have hm := matchHere_of_doMatch hd
  rw [List.append_nil] at hm
  have hadd : ∀ m : Match, addS m (str "<CITE>%1</CITE><BR>") =
      str "<CITE>" ++ (m.captures.getD 0 [] ++ str "</CITE><BR>") := by
    intro m
    have hsplit : str "<CITE>%1</CITE><BR>" = str "<CITE>" ++ (str "%1" ++ str "</CITE><BR>") := by
      decide
    rw [hsplit, addS_append m (by decide), addS_append m (by decide), addS_capture,
      addS_plain m (by decide), addS_plain m (by decide)]
  rw [blockQuote, hpat, hrepl, gsubStr, replaceAll_anchor, hm]
  simp only [Option.map_some, Option.getD_some, hadd, List.append_nil]
  rfl

/-- The closing brackets of the first tag and of the text, their runs escaped. -/
def closingRuns (g : Bytes) : Bytes := gsubRuns (ch '>') (str "&gt;&gt;") (ch '>' :: g)

/-- The opening brackets of the text and of the last tag, their runs escaped. -/
def openingRuns (l : Bytes) : Bytes := gsubRuns (ch '<') (str "&lt;&lt;") (l ++ [ch '<'])

theorem gsubRuns_bytes {p : Byte → Prop} {c : Byte} {r s : Bytes} (hr : ∀ b ∈ r, p b)
    (hs : ∀ b ∈ s, p b) : ∀ b ∈ gsubRuns c r s, p b :=
  replaceAll_bytes hs fun _ _ _ => hr

theorem openingRuns_gt (hl : ch '>' ∉ l) : ch '>' ∉ openingRuns l := by
  have hne : ∀ b ∈ l ++ [ch '<'], b ≠ ch '>' := by
    intro b hb
    rcases List.mem_append.mp hb with hb | hb
    · exact fun h => hl (h ▸ hb)
    · rw [List.mem_singleton.mp hb]
      decide
  exact fun hmem => gsubRuns_bytes (p := (· ≠ ch '>')) (by decide) hne _ hmem rfl

theorem closingRuns_lt (hg : ch '<' ∉ g) : ch '<' ∉ closingRuns g := by
  have hne : ∀ b ∈ ch '>' :: g, b ≠ ch '<' := by
    intro b hb
    rcases List.mem_cons.mp hb with rfl | hb
    · decide
    · exact fun h => hg (h ▸ hb)
  exact fun hmem => gsubRuns_bytes (p := (· ≠ ch '<')) (by decide) hne _ hmem rfl

/-- The brackets next to the tags belong to the runs. -/
theorem quoteRuns_eq (hg : ch '<' ∉ g) (hl : ch '>' ∉ l) :
    gsubStr (pat "(>>+)") (rep (str "&gt;") (str "%1").length)
        (gsubStr (pat "(<<+)") (rep (str "&lt;") (str "%1").length)
          (str "<CITE>" ++ ((g ++ l) ++ str "</CITE><BR>"))) =
      str "<CITE" ++ (closingRuns g ++ (openingRuns l ++ str "/CITE><BR>")) := by
  have hopen : pat "(<<+)" = ⟨false, runsOf (ch '<')⟩ := by decide
  have hclose : pat "(>>+)" = ⟨false, runsOf (ch '>')⟩ := by decide
  have hlt : rep (str "&lt;") (str "%1").length = str "&lt;&lt;" := by decide
  have hgt : rep (str "&gt;") (str "%1").length = str "&gt;&gt;" := by decide
  have hline : str "<CITE>" ++ ((g ++ l) ++ str "</CITE><BR>") =
      [ch '<'] ++ ((str "CITE>" ++ g) ++ ((l ++ [ch '<']) ++ str "/CITE><BR>")) := by
    rw [show str "<CITE>" = [ch '<'] ++ str "CITE>" by decide,
      show str "</CITE><BR>" = [ch '<'] ++ str "/CITE><BR>" by decide]
    simp
  have hfirst : Free (ch '<') ((str "CITE>" ++ g) ++ ((l ++ [ch '<']) ++ str "/CITE><BR>")) :=
    Free.of_ne (b := ch 'C') (by decide) _
  have hend : ∀ c, c ≠ ch '/' → Free c (str "/CITE><BR>") := fun c hc =>
    Free.of_ne (b := ch '/') hc.symm _
  have habsent : ch '<' ∉ str "CITE>" ++ g := by
    simp [hg, show ch '<' ∉ str "CITE>" by decide]
  have hquiet : Free (ch '>') (openingRuns l ++ str "/CITE><BR>") := by
    refine Free.append (fun b t h => ?_) (hend _ (by decide))
    rintro rfl
    exact openingRuns_gt hl (by simp [h])
  have hopened : gsubRuns (ch '<') (str "&lt;&lt;")
      ([ch '<'] ++ ((str "CITE>" ++ g) ++ ((l ++ [ch '<']) ++ str "/CITE><BR>"))) =
        str "<CITE" ++ ((ch '>' :: g) ++ (openingRuns l ++ str "/CITE><BR>")) := by
    rw [gsubRuns_append hfirst, gsubRuns_absent habsent,
      gsubRuns_append (hend _ (by decide)),
      show gsubRuns (ch '<') (str "&lt;&lt;") [ch '<'] = [ch '<'] by decide,
      show gsubRuns (ch '<') (str "&lt;&lt;") (str "/CITE><BR>") = str "/CITE><BR>" by decide,
      show str "CITE>" = str "CITE" ++ [ch '>'] by decide,
      show str "<CITE" = [ch '<'] ++ str "CITE" by decide, openingRuns]
    simp
  rw [hopen, hclose, hlt, hgt, gsubStr_runs (by decide), gsubStr_runs (by decide), hline, hopened,
    gsubRuns_absent (by decide), gsubRuns_append hquiet, gsubRuns_absent (openingRuns_gt hl),
    show gsubRuns (ch '>') (str "&gt;&gt;") (str "/CITE><BR>") = str "/CITE><BR>" by decide]
  rfl

/-- No mark `<nop>` comes from the tags. -/
theorem no_nopMark (hg : ch '<' ∉ g) (hl : ch '>' ∉ l) :
    ¬ str "<nop>" <:+: str "<CITE" ++ (closingRuns g ++ (openingRuns l ++ str "/CITE><BR>")) := by
  have hlt : ch '<' ∉ str "CITE" ++ closingRuns g := by
    simp [closingRuns_lt hg, show ch '<' ∉ str "CITE" by decide]
  have hgt : ch '>' ∉ openingRuns l ++ str "/CITE" := by
    simp [openingRuns_gt hl, show ch '>' ∉ str "/CITE" by decide]
  -- the closing bracket would belong to one of the last tags, and follow a `p`
  have hletter : (openingRuns l ++ str "/CITE><BR>").IsChain
      fun b e => e = ch '>' → b ≠ ch 'p' := by
    rw [show str "/CITE><BR>" = str "/CITE" ++ str "><BR>" by decide, ← List.append_assoc]
    refine List.IsChain.append ?_ (by decide) fun b hb _ _ _ => ?_
    · rw [List.isChain_iff_forall_rel_of_append_cons_cons]
      rintro b e u v heq rfl
      exact absurd (by simp [heq]) hgt
    · rw [List.getLast?_append_of_ne_nil _ (by decide)] at hb
      obtain rfl := Option.some.inj hb
      decide
  have hno : ∀ y z, openingRuns l ++ str "/CITE><BR>" ≠ y ++ ch 'p' :: ch '>' :: z := fun y z h =>
    List.isChain_iff_forall_rel_of_append_cons_cons.mp hletter h rfl rfl
  rintro ⟨w, z, hwz⟩
  cases w with
  | nil => exact absurd (List.cons.inj (List.cons.inj hwz).2).1 (by decide)
  | cons b w =>
    have hrest : w ++ ch '<' :: (str "nop>" ++ z) =
        (str "CITE" ++ closingRuns g) ++ (openingRuns l ++ str "/CITE><BR>") := by
      rw [List.append_assoc (b :: w)] at hwz
      rw [List.append_assoc]
      exact (List.cons.inj hwz).2
    rcases List.append_eq_append_iff.mp hrest with ⟨y, hy, hz⟩ | ⟨y, _, hz⟩
    · cases y with
      | nil => exact hno (str "<no") z hz.symm
      | cons d y =>
        obtain ⟨rfl, _⟩ := List.cons.inj hz
        exact absurd (by rw [hy]; simp) hlt
    · refine hno (y ++ str "<no") z (hz.trans ?_)
      rw [List.append_assoc]
      rfl

/-! ### The tags -/

/-- Every opening bracket has a blank after it. -/
def Quiet (x : Bytes) : Prop := ∀ u v, x = u ++ ch '<' :: v → StartsIn (isSpace · = true) v

theorem Quiet.tail {b : Byte} (h : Quiet (b :: x)) : Quiet x :=
  fun u v hx => h (b :: u) v (by rw [hx, List.cons_append])

theorem Quiet.cons {b : Byte} (hx : Quiet x) (hb : b = ch '<' → StartsIn (isSpace · = true) x) :
    Quiet (b :: x) := by
  intro u v h
  cases u with
  | nil =>
    obtain ⟨hmark, rfl⟩ := List.cons.inj h
    exact hb hmark
  | cons d u => exact hx u v (List.cons.inj h).2

theorem Quiet.after (hu : ch '<' ∉ u) (hx : Quiet x) : Quiet (u ++ x) := by
  induction u with
  | nil => exact hx
  | cons b u ih =>
    exact (ih fun h => hu (List.mem_cons_of_mem _ h)).cons fun h => absurd (by simp [h]) hu

/-- No tag begins in a quiet text. -/
theorem Quiet.gsubStr_tag (h : Quiet x) (repl v : Bytes) :
    gsubStr tagPattern repl (x ++ v) = x ++ gsubStr tagPattern repl v := by
  induction x with
  | nil => rfl
  | cons b x ih =>
    by_cases hb : b = ch '<'
    · obtain ⟨d, w, rfl, hd⟩ := h [] x (by rw [hb, List.nil_append])
      have hpair : headPair tagItems = some (.lit (ch '<'), .cls (ch 'S')) := by decide
      have hclass : singleMatch d (.cls (ch 'S')) = false := by
        have hspace : ∀ d, isSpace d = true → singleMatch d (.cls (ch 'S')) = false := by
          refine forall_byte ?_
          decide +kernel
        exact hspace d hd
      have hmiss : matchHere tagItems (b :: (d :: w ++ v)) = none :=
        matchHere_pair hpair fun _ e y hsplit _ => by
          obtain ⟨rfl, _⟩ := List.cons.inj (List.cons.inj hsplit).2
          exact hclass
      have hrest := ih h.tail
      rw [tagPattern, tag_pattern, gsubStr] at hrest ⊢
      rw [List.cons_append, replaceAll_miss hmiss, hrest]
      rfl
    · rw [List.cons_append, ← List.singleton_append,
        gsubStr_tag_run (fun hmem => hb (List.mem_singleton.mp hmem).symm), ih h.tail]
      rfl

/-- The first opening bracket without a blank after it. -/
theorem quiet_split (s : Bytes) : Quiet s ∨ ∃ x q, s = x ++ ch '<' :: q ∧ Quiet x ∧
    ¬ StartsIn (isSpace · = true) q := by
  induction s with
  | nil => exact .inl fun u v h => absurd h (by simp)
  | cons b s ih =>
    by_cases hb : b = ch '<' ∧ ¬ StartsIn (isSpace · = true) s
    · exact .inr ⟨[], s, by rw [hb.1, List.nil_append], fun u v h => absurd h (by simp), hb.2⟩
    · have hblank : b = ch '<' → StartsIn (isSpace · = true) s :=
        fun h => by_contra fun hs => hb ⟨h, hs⟩
      rcases ih with hs | ⟨x, q, rfl, hx, hq⟩
      · exact .inl (hs.cons hblank)
      · refine .inr ⟨b :: x, q, rfl, hx.cons fun h => ?_, hq⟩
        obtain ⟨d, w, hd, hspace⟩ := hblank h
        cases x with
        | nil =>
          obtain ⟨rfl, _⟩ := List.cons.inj hd
          exact absurd hspace (by decide)
        | cons e x =>
          obtain ⟨rfl, _⟩ := List.cons.inj hd
          exact ⟨e, x, rfl, hspace⟩

/-! ### `embeddedHtml` -/

/-- The quoted text between its tags. -/
def quoteLine (g l : Bytes) : Bytes := str "<CITE>" ++ ((g ++ l) ++ str "</CITE><BR>")

def markTags (s : Bytes) : Bytes := gsubStr tagPattern (transToken ++ str "%1" ++ transToken) s

def isQuotedByte (b : Byte) : Bool := isQuoteByte b || (str "&;/CITEBR~$").contains b

theorem quoteLine_bytes (h : ∀ b ∈ g ++ l, isQuoteByte b = true) :
    ∀ b ∈ quoteLine g l, isQuotedByte b = true := by
  have htags : ∀ b ∈ str "<CITE>" ++ str "</CITE><BR>", isQuotedByte b = true := by decide
  intro b hb
  rcases List.mem_append.mp hb with hb | hb
  · exact htags b (List.mem_append_left _ hb)
  · rcases List.mem_append.mp hb with hb | hb
    · simp [isQuotedByte, h b hb]
    · exact htags b (List.mem_append_right _ hb)

theorem escapeMarks_bytes {s : Bytes} (h : ∀ b ∈ s, isQuotedByte b = true) :
    ∀ b ∈ escapeMarks s, isQuotedByte b = true := by
  rw [← escapeMarks_eq]
  exact gsubStr_bytes rfl (by decide) (gsubStr_bytes rfl (by decide) h)

/-- The bytes of a quoted text with escaped brackets. -/
def isMarkedByte (b : Byte) : Bool := isQuoteByte b || (str "&;").contains b

theorem runs_text {c : Byte} {r : Bytes} (hr : ∀ b ∈ r, isMarkedByte b = true)
    (h : ∀ b ∈ v, isQuoteByte b = true) : ∀ b ∈ gsubRuns c r v, isMarkedByte b = true :=
  gsubRuns_bytes hr fun b hb => by simp [isMarkedByte, h b hb]

theorem openingRuns_text (h : ∀ b ∈ l, isQuoteByte b = true) :
    ∀ b ∈ openingRuns l, isMarkedByte b = true := by
  refine runs_text (by decide) fun b hb => ?_
  rcases List.mem_append.mp hb with hb | hb
  · exact h b hb
  · rw [List.mem_singleton.mp hb]
    decide

theorem closingRuns_text (h : ∀ b ∈ g, isQuoteByte b = true) :
    ∀ b ∈ closingRuns g, isMarkedByte b = true := by
  refine runs_text (by decide) fun b hb => ?_
  rcases List.mem_cons.mp hb with rfl | hb
  · decide
  · exact h b hb

theorem escapeMarks_text (h : ∀ b ∈ v, isMarkedByte b = true) :
    ∀ b ∈ escapeMarks v, isMarkedByte b = true := by
  rw [← escapeMarks_eq]
  exact gsubStr_bytes rfl (by decide) (gsubStr_bytes rfl (by decide) h)

theorem embeddedHtml_quoteLine (h : ∀ b ∈ g ++ l, isQuoteByte b = true) (hg : ch '<' ∉ g)
    (hl : ch '>' ∉ l) :
    embeddedHtml (quoteLine g l) = gsubStr tokenPattern (str "<%1>")
        (escapeMarks (markTags
          (str "<CITE" ++ (closingRuns g ++ (openingRuns l ++ str "/CITE><BR>"))))) ∧
      ∀ b ∈ embeddedHtml (quoteLine g l), isQuotedByte b = true := by
  have hbytes := quoteLine_bytes h
  have hexcl : (pat "<!%-%-").Misses (quoteLine g l) :=
    .of_needs (x := ch '!') (by decide) (not_mem_of_bytes hbytes (by decide))
  have hclose : (pat "%-%->").Misses (quoteLine g l) :=
    .of_needs (x := ch '-') (by decide) (not_mem_of_bytes hbytes (by decide))
  have hruns := quoteRuns_eq hg hl
  have hrunBytes : ∀ b ∈ str "<CITE" ++ (closingRuns g ++ (openingRuns l ++ str "/CITE><BR>")),
      isQuotedByte b = true := by
    rw [← hruns]
    exact gsubStr_bytes rfl (by decide) (gsubStr_bytes rfl (by decide) hbytes)
  have hmark : (pat "<nop>").Misses
      (str "<CITE" ++ (closingRuns g ++ (openingRuns l ++ str "/CITE><BR>"))) :=
    .of_reduce (b := str "<nop>") (by decide) (no_nopMark hg hl)
  generalize str "<CITE" ++ (closingRuns g ++ (openingRuns l ++ str "/CITE><BR>")) = runs
    at hruns hrunBytes hmark ⊢
  have hout : ∀ b ∈ gsubStr tokenPattern (str "<%1>") (escapeMarks (markTags runs)),
      isQuotedByte b = true :=
    gsubStr_bytes rfl (by decide) (escapeMarks_bytes (gsubStr_bytes rfl (by decide) hrunBytes))
  have hnop := Pattern.Misses.of_needs (p := pat "nopTOKEN") (x := ch 'K') (by decide)
    (not_mem_of_bytes hout (by decide))
  have hcomment := Pattern.Misses.of_needs (p := pat "~$~!%-%-") (x := ch '!') (by decide)
    (not_mem_of_bytes hout (by decide))
  have hends := Pattern.Misses.of_needs (p := pat "%-%-~$~") (x := ch '-') (by decide)
    (not_mem_of_bytes hout (by decide))
  have hline : embeddedHtml (quoteLine g l) =
      gsubStr tokenPattern (str "<%1>") (escapeMarks (markTags runs)) := by
    rw [← escapeMarks_eq] at hnop hcomment hends ⊢
    simp only [gsubStr, quoteLine] at hexcl hclose hruns
    simp only [gsubStr, tokenPattern, markTags, tagPattern] at hnop hcomment hends
    simp only [embeddedHtml, gsubStr, tokenPattern, markTags, tagPattern, quoteLine]
    rw [replaceAll_misses hexcl, replaceAll_misses hclose, hruns, replaceAll_misses hmark,
      replaceAll_misses hnop, replaceAll_misses hcomment, replaceAll_misses hends]
  rw [hline]
  exact ⟨rfl, hout⟩

/-- Two tags that are told apart from the text between them. -/
theorem embeddedHtml_tags {y z : Bytes} (hx : ch '~' ∉ x) (hy : ch '~' ∉ y)
    (hfirst : StartsIn (fun b => isSpace b = false) y) :
    gsubStr tokenPattern (str "<%1>") (transToken ++ (str "CITE" ++ (transToken ++ (x ++
      (transToken ++ (y ++ (transToken ++ z))))))) =
        str "<CITE>" ++ (x ++ ch '<' :: (y ++ ch '>' :: gsubStr tokenPattern (str "<%1>") z)) := by
  have hcite : StartsIn (fun b => isSpace b = false) (str "CITE") :=
    ⟨ch 'C', str "ITE", rfl, by decide⟩
  rw [gsubStr_tokens_head hcite (by decide), gsubStr_tokens_run hx, gsubStr_tokens_head hfirst hy]
  rfl

theorem closingRuns_free (hg : Free (ch '>') g) :
    closingRuns g = ch '>' :: gsubRuns (ch '>') (str "&gt;&gt;") g :=
  gsubRuns_one hg _

theorem markTags_cite (hfree : Free (ch '>') g) (hg : ch '<' ∉ g) (v : Bytes) :
    markTags (str "<CITE" ++ (closingRuns g ++ v)) = transToken ++ (str "CITE" ++ (transToken ++
      (gsubRuns (ch '>') (str "&gt;&gt;") g ++ markTags v))) := by
  have hlt : ch '<' ∉ gsubRuns (ch '>') (str "&gt;&gt;") g := fun hmem =>
    closingRuns_lt hg (by rw [closingRuns_free hfree]; exact List.mem_cons_of_mem _ hmem)
  have htag := gsubStr_tag_head (t := str "CITE") ⟨ch 'C', str "ITE", rfl, by decide⟩ (by decide)
    (gsubRuns (ch '>') (str "&gt;&gt;") g ++ v)
  rw [gsubStr_tag_run hlt] at htag
  rw [closingRuns_free hfree, List.cons_append]
  exact htag

theorem markTags_br : markTags (str "<BR>") = transToken ++ (str "BR" ++ transToken) := by
  decide +kernel

theorem tokens_br :
    gsubStr tokenPattern (str "<%1>") (transToken ++ (str "BR" ++ transToken)) = str "<BR>" := by
  decide +kernel

theorem escapeMarks_token : escapeMarks transToken = transToken := by decide

/-- The last tag is kept when no tag begins in the text. -/
theorem embeddedHtml_kept (h : ∀ b ∈ g ++ l, isQuoteByte b = true) (hg : ch '<' ∉ g)
    (hl : ch '>' ∉ l) (hfree : Free (ch '>') g) (hsplit : openingRuns l = x ++ ch '<' :: q)
    (hx : Quiet x) (hq : ¬ StartsIn (isSpace · = true) q) :
    embeddedHtml (quoteLine g l) = str "<CITE>" ++
      (escapeMarks (gsubRuns (ch '>') (str "&gt;&gt;") g ++ x) ++
        ch '<' :: (escapeMarks q ++ str "/CITE><BR>")) := by
  have hgText : ∀ b ∈ gsubRuns (ch '>') (str "&gt;&gt;") g, isMarkedByte b = true :=
    runs_text (by decide) fun b hb => h b (List.mem_append_left _ hb)
  have hlText : ∀ b ∈ x ++ ch '<' :: q, isMarkedByte b = true := by
    rw [← hsplit]
    exact openingRuns_text fun b hb => h b (List.mem_append_right _ hb)
  have htilde : ∀ {v : Bytes}, (∀ b ∈ v, isMarkedByte b = true) → ch '~' ∉ escapeMarks v :=
    fun hv => not_mem_of_bytes (escapeMarks_text hv) (by decide)
  have hmiddle : ch '~' ∉ escapeMarks (gsubRuns (ch '>') (str "&gt;&gt;") g ++ x) :=
    htilde fun b hb => (List.mem_append.mp hb).elim (hgText b)
      fun hb => hlText b (List.mem_append_left _ hb)
  have hlast : ch '~' ∉ escapeMarks q ++ str "/CITE" := by
    have hescaped : ch '~' ∉ escapeMarks q :=
      htilde fun b hb => hlText b (List.mem_append_right x (List.mem_cons_of_mem _ hb))
    simp [hescaped, show ch '~' ∉ str "/CITE" by decide]
  have hsolid : ∀ s, ¬ StartsIn (isSpace · = true) s → StartsIn (fun b => isSpace b = false)
      (s ++ str "/CITE") := by
    intro s hs
    cases s with
    | nil => exact ⟨ch '/', str "CITE", rfl, by decide⟩
    | cons b s =>
      refine ⟨b, s ++ str "/CITE", rfl, Bool.eq_false_iff.mpr fun hb => hs ⟨b, s, rfl, hb⟩⟩
  have hescaped : ¬ StartsIn (isSpace · = true) (escapeMarks q) := by
    rintro ⟨b, s, hb, hspace⟩
    cases q with
    | nil => cases hb
    | cons d q =>
      have hcons : escapeMarks (d :: q) = escapeMark d ++ escapeMarks q := rfl
      rw [hcons, escapeMark] at hb
      split_ifs at hb
      · obtain ⟨rfl, _⟩ := List.cons.inj hb
        exact absurd hspace (by decide)
      · obtain ⟨rfl, _⟩ := List.cons.inj hb
        exact absurd hspace (by decide)
      · obtain ⟨rfl, _⟩ := List.cons.inj hb
        exact hq ⟨d, q, rfl, hspace⟩
  have hgt : ch '>' ∉ q ++ str "/CITE" := by
    have hrest : ch '>' ∉ q := fun hb => openingRuns_gt hl (by rw [hsplit]; simp [hb])
    simp [hrest, show ch '>' ∉ str "/CITE" by decide]
  have htags : markTags (openingRuns l ++ str "/CITE><BR>") = x ++ (transToken ++
      ((q ++ str "/CITE") ++ (transToken ++ markTags (str "<BR>")))) := by
    have htag := gsubStr_tag_head (hsolid q hq) hgt (str "<BR>")
    have hline : openingRuns l ++ str "/CITE><BR>" =
        x ++ ch '<' :: ((q ++ str "/CITE") ++ ch '>' :: str "<BR>") := by
      rw [hsplit, show str "/CITE><BR>" = str "/CITE" ++ ch '>' :: str "<BR>" by decide]
      simp
    rw [hline, markTags, hx.gsubStr_tag, htag]
    rfl
  have hcite : escapeMarks (str "CITE") = str "CITE" ∧ escapeMarks (str "/CITE") = str "/CITE" ∧
      escapeMarks (str "BR") = str "BR" := by decide
  rw [(embeddedHtml_quoteLine h hg hl).1, markTags_cite hfree hg, htags, markTags_br,
    ← List.append_assoc (gsubRuns _ _ g)]
  generalize gsubRuns (ch '>') (str "&gt;&gt;") g ++ x = middle at hmiddle ⊢
  simp only [escapeMarks_append, escapeMarks_token, hcite]
  rw [embeddedHtml_tags hmiddle hlast (hsolid _ hescaped), tokens_br,
    show str "/CITE><BR>" = str "/CITE" ++ ch '>' :: str "<BR>" by decide]
  simp

/-- The last tag is lost when the text ends in an opening bracket and no tag begins in it. -/
theorem embeddedHtml_merged (h : ∀ b ∈ g ++ l, isQuoteByte b = true) (hg : ch '<' ∉ g)
    (hl : ch '>' ∉ l) (hfree : Free (ch '>') g) (hquiet : Quiet (openingRuns l)) :
    embeddedHtml (quoteLine g l) = str "<CITE>" ++
      (escapeMarks (gsubRuns (ch '>') (str "&gt;&gt;") g ++ openingRuns l) ++
        str "/CITE&gt;<BR>") := by
  have hlText : ∀ b ∈ openingRuns l, isMarkedByte b = true :=
    openingRuns_text fun b hb => h b (List.mem_append_right _ hb)
  have hgText : ∀ b ∈ gsubRuns (ch '>') (str "&gt;&gt;") g, isMarkedByte b = true :=
    runs_text (by decide) fun b hb => h b (List.mem_append_left _ hb)
  have htags : markTags (openingRuns l ++ str "/CITE><BR>") =
      openingRuns l ++ (str "/CITE>" ++ markTags (str "<BR>")) := by
    rw [show str "/CITE><BR>" = str "/CITE>" ++ str "<BR>" by decide, markTags, hquiet.gsubStr_tag,
      gsubStr_tag_run (by decide)]
    rfl
  have hcite : escapeMarks (str "CITE") = str "CITE" ∧ escapeMarks (str "BR") = str "BR" := by
    decide
  have htext : ch '~' ∉
      escapeMarks (gsubRuns (ch '>') (str "&gt;&gt;") g ++ openingRuns l) ++
        escapeMarks (str "/CITE>") := by
    have htilde := not_mem_of_bytes (x := ch '~') (escapeMarks_text
      fun b hb => (List.mem_append.mp hb).elim (hgText b) (hlText b)) (by decide)
    simp [htilde, show ch '~' ∉ escapeMarks (str "/CITE>") by decide]
  have hfirst : StartsIn (fun b => isSpace b = false) (str "CITE") :=
    ⟨ch 'C', str "ITE", rfl, by decide⟩
  have hassoc : gsubRuns (ch '>') (str "&gt;&gt;") g ++ (openingRuns l ++ (str "/CITE>" ++
      markTags (str "<BR>"))) = (gsubRuns (ch '>') (str "&gt;&gt;") g ++ openingRuns l) ++
        (str "/CITE>" ++ markTags (str "<BR>")) := by simp
  rw [(embeddedHtml_quoteLine h hg hl).1, markTags_cite hfree hg, htags, hassoc, markTags_br]
  generalize gsubRuns (ch '>') (str "&gt;&gt;") g ++ openingRuns l = middle at htext ⊢
  have hmarked : escapeMarks (transToken ++ (str "CITE" ++ (transToken ++ (middle ++
      (str "/CITE>" ++ (transToken ++ (str "BR" ++ transToken))))))) =
        transToken ++ (str "CITE" ++ (transToken ++ ((escapeMarks middle ++
          escapeMarks (str "/CITE>")) ++ (transToken ++ (str "BR" ++ transToken))))) := by
    simp only [escapeMarks_append, escapeMarks_token, hcite, List.append_assoc]
  rw [hmarked, gsubStr_tokens_head hfirst (by decide), gsubStr_tokens_run htext, tokens_br,
    show escapeMarks (str "/CITE>") = str "/CITE&gt;" by decide,
    show str "/CITE&gt;<BR>" = str "/CITE&gt;" ++ str "<BR>" by decide, List.append_assoc]
  rfl

/-- The first tag does not end where it should when the text begins with a closing bracket. -/
theorem embeddedHtml_joined (h : ∀ b ∈ (ch '>' :: g) ++ l, isQuoteByte b = true)
    (hg : ch '<' ∉ ch '>' :: g) (hl : ch '>' ∉ l) :
    ∃ v, embeddedHtml (quoteLine (ch '>' :: g) l) = str "<CITE&" ++ v := by
  obtain ⟨w, hw⟩ := gsubRuns_double (ch '>') (str "&gt;&gt;") g
  have hclosing : closingRuns (ch '>' :: g) = str "&gt;&gt;" ++ w := hw
  have hmem : ch '>' ∈ w ++ (openingRuns l ++ str "/CITE><BR>") := by
    simp [show ch '>' ∈ str "/CITE><BR>" by decide]
  obtain ⟨r, r', hrest, hr⟩ := List.eq_append_cons_of_mem hmem
  have htilde : ch '~' ∉ escapeMarks r := by
    have hclosed := closingRuns_text fun b hb => h b (List.mem_append_left _ hb)
    have hopened := openingRuns_text fun b hb => h b (List.mem_append_right _ hb)
    have hw : ch '~' ∉ w := fun hmem =>
      not_mem_of_bytes hclosed (x := ch '~') (by decide) (by simp [hclosing, hmem])
    have hl : ch '~' ∉ openingRuns l := not_mem_of_bytes hopened (by decide)
    refine escapeMarks_absent (by decide) fun hmem => ?_
    have hall : ch '~' ∈ w ++ (openingRuns l ++ str "/CITE><BR>") := by simp [hrest, hmem]
    simp [hw, hl, show ch '~' ∉ str "/CITE><BR>" by decide] at hall
  have hfirst : ∀ v, StartsIn (fun b => isSpace b = false) (str "CITE&gt;&gt;" ++ v) := fun v =>
    ⟨ch 'C', str "ITE&gt;&gt;" ++ v, rfl, by decide⟩
  have hgt : ch '>' ∉ str "CITE&gt;&gt;" ++ r := by
    simp [hr, show ch '>' ∉ str "CITE&gt;&gt;" by decide]
  have hjoined : ch '~' ∉ str "CITE&gt;&gt;" ++ escapeMarks r := by
    simp [htilde, show ch '~' ∉ str "CITE&gt;&gt;" by decide]
  have hline : str "<CITE" ++ (closingRuns (ch '>' :: g) ++ (openingRuns l ++ str "/CITE><BR>")) =
      ch '<' :: ((str "CITE&gt;&gt;" ++ r) ++ ch '>' :: r') := by
    rw [hclosing, List.append_assoc, hrest]
    simp [show str "<CITE" = ch '<' :: str "CITE" by decide,
      show str "CITE&gt;&gt;" = str "CITE" ++ str "&gt;&gt;" by decide]
  have hcite : escapeMarks (str "CITE&gt;&gt;") = str "CITE&gt;&gt;" := by decide
  have htag := gsubStr_tag_head (hfirst r) hgt r'
  rw [(embeddedHtml_quoteLine h hg hl).1, hline, markTags, htag, escapeMarks_append,
    escapeMarks_append, escapeMarks_append, escapeMarks_append, escapeMarks_token, hcite,
    gsubStr_tokens_head (hfirst _) hjoined]
  exact ⟨_, rfl⟩

/-! ### The rest of the line -/

theorem Apart.of_marks (h : ∀ b ∈ v, isMarkedByte b = true) : Apart (escapeMarks v) := by
  have hupper : ∀ b, isMarkedByte b = true → isUpper b = false := by
    refine forall_byte ?_
    decide +kernel
  exact .of_bytes fun b hb => hupper b (escapeMarks_text h b hb)

/-- The quoted text with its tags is only padded by the later steps. -/
theorem settled_quoteLine {e : Bytes} (hbytes : ∀ b ∈ e, isQuotedByte b = true)
    (hhead : ∃ v, e = ch '<' :: v) (hapart : Apart e) (noAutoLink : Bool) :
    Settled noAutoLink e := by
  have hno : ∀ x, isQuotedByte x = false → x ∉ e := fun x hx => not_mem_of_bytes hbytes hx
  have hpad : ∀ b ∈ str " " ++ e ++ str " ", isQuotedByte b = true := by
    intro b hb
    have hblank : ∀ b ∈ str " ", isQuotedByte b = true := by decide
    rcases List.mem_append.mp hb with hb | hb
    · exact (List.mem_append.mp hb).elim (hblank b) (hbytes b)
    · exact hblank b hb
  obtain ⟨v, rfl⟩ := hhead
  refine ⟨⟨List.cons_ne_nil _ _, fun b t h => ?_, hno _ (by decide), hno _ (by decide)⟩,
    hno _ (by decide), hno _ (by decide), fun rule hrule => ?_, .inr ?_⟩
  · obtain ⟨rfl, _⟩ := List.cons.inj h
    decide
  · exact emphasisRules_misses (not_mem_of_bytes hpad (by decide))
      (not_mem_of_bytes hpad (by decide)) (not_mem_of_bytes hpad (by decide)) rule hrule
  · exact hapart.misses

/-! ### A line that begins in the wrong way -/

theorem entities_quoted {s : Bytes} (h : ∀ b ∈ s, isQuotedByte b = true) :
    ∀ b ∈ entities s, isQuotedByte b = true := by
  have hnamed : ∀ b ∈ gsubStr (pat "&(%w%w-);") (transToken ++ str "%1;") s,
      isQuotedByte b = true := gsubStr_bytes rfl (by decide) h
  have hnumber := Pattern.Misses.of_needs (p := pat "&#(%d+);") (x := ch '#') (by decide)
    (not_mem_of_bytes hnamed (by decide))
  have hsame : gsubStr (pat "&#(%d+);") (transToken ++ str "#%1;")
      (gsubStr (pat "&(%w%w-);") (transToken ++ str "%1;") s) =
        gsubStr (pat "&(%w%w-);") (transToken ++ str "%1;") s := replaceAll_misses hnumber _
  rw [entities, hsame]
  exact gsubStr_bytes rfl (by decide) (gsubStr_bytes rfl (by decide) hnamed)

/-- The marks of entities. -/
def isEntityMark (b : Byte) : Prop := b = ch '&' ∨ b = ch '~'

instance : DecidablePred isEntityMark := fun _ => inferInstanceAs (Decidable (_ ∨ _))

theorem entities_run (hamp : ch '&' ∉ u) (htilde : ch '~' ∉ u) (v : Bytes) :
    entities (u ++ v) = u ++ entities v := by
  have hpass : ∀ {is : List Item} {c : Byte} (repl s : Bytes), headSingle is = some (.lit c) →
      c ∉ u → gsubStr ⟨false, is⟩ repl (u ++ s) = u ++ gsubStr ⟨false, is⟩ repl s :=
    fun repl s hhead hc =>
      replaceAll_run hhead (fun b hb => beq_false_of_ne fun h => hc (h ▸ hb)) _ s
  have hunanchored : ∀ p : Pattern, p.anchor = false → p = ⟨false, p.items⟩ := by
    rintro ⟨anchor, is⟩ rfl
    rfl
  simp only [entities]
  rw [hunanchored (pat "&(%w%w-);") rfl, hpass _ _ named_head hamp,
    hunanchored (pat "&#(%d+);") rfl, hpass _ _ number_head hamp,
    hunanchored (pat "&") rfl, hpass _ _ amp_head hamp,
    hunanchored (pat "~$~") rfl, hpass _ _ token_head htilde]

theorem entities_mark (v : Bytes) : StartsIn isEntityMark (entities (ch '&' :: v)) := by
  have hnamed : transToken ++ str "%1;" = ch '~' :: str "$~%1;" := by decide
  have hnumber : transToken ++ str "#%1;" = ch '~' :: str "$~#%1;" := by decide
  have hamp : str "&amp;" = ch '&' :: str "amp;" := by decide
  have htoken : str "&" = ch '&' :: [] := by decide
  rw [entities, hnamed, hnumber, hamp, htoken]
  exact gsubStr_startsIn rfl (by decide) (by decide) (gsubStr_startsIn rfl (by decide) (by decide)
    (gsubStr_startsIn rfl (by decide) (by decide) (gsubStr_startsIn rfl (by decide) (by decide)
      ⟨ch '&', v, rfl, .inl rfl⟩ _) _) _) _

/-- An automatic link leaves what comes before the first word. -/
theorem autoLinks_lead {s : Bytes} (hhash : ch '#' ∉ s) (hu : ∀ b ∈ u, wordItem.takes b = false)
    (hfirst : StartsIn (fun b => isUpper b = false) u) (hs : s = ch ' ' :: (u ++ v))
    (st : FormatterState) : ∃ w, (autoLinks env s st).1 = ch ' ' :: (u ++ w) := by
  rw [autoLinks_fst]
  split_ifs
  · exact ⟨v, hs⟩
  · have hanchored : anchoredPattern.Misses s := .of_needs (x := ch '#') (by decide) hhash
    have hhead : headSingle plainPattern.items =
        some (.set false [.cls (ch 's'), .lit (ch '(')]) := by decide
    have hmiss : matchHere plainPattern.items (ch ' ' :: (u ++ v)) = none := by
      obtain ⟨b, x, rfl, hb⟩ := hfirst
      refine matchHere_pair plainPattern_pair fun _ e y h _ => ?_
      obtain ⟨rfl, _⟩ := List.cons.inj (List.cons.inj h).2
      rw [singleMatch_upper]
      exact hb
    have hsame : gsub anchoredPattern (autoText env anchoredCall) s = ch ' ' :: (u ++ v) :=
      (replaceAll_misses hanchored _).trans hs
    have hrun : ∀ b ∈ u, singleMatch b (.set false [.cls (ch 's'), .lit (ch '(')]) = false := hu
    have hplain : plainPattern = ⟨false, plainPattern.items⟩ := by decide
    rw [hsame, gsub, hplain, replaceAll_miss hmiss, replaceAll_run hhead hrun]
    exact ⟨_, rfl⟩

/-- A text that goes wrong in the first tag is rendered so. -/
theorem formatWikiLine_joined {s : Bytes} (hv : embeddedHtml (blockQuote s) = str "<CITE&" ++ v)
    (hbytes : ∀ b ∈ embeddedHtml (blockQuote s), isQuotedByte b = true) (env : FormatterEnv)
    (st : FormatterState) :
    ∃ d w, isEntityMark d ∧ (formatWikiLine env s st).1 = str " <CITE" ++ d :: w := by
  have hsplit : str "<CITE&" ++ v = str "<CITE" ++ ch '&' :: v := rfl
  have hcolon : ch ':' ∉ embeddedHtml (blockQuote s) := not_mem_of_bytes hbytes (by decide)
  obtain ⟨d, w, hw, hd⟩ := entities_mark v
  have hl : entities (embeddedUrls env.cls (embeddedHtml (blockQuote s))) =
      str "<CITE" ++ d :: w := by
    rw [embeddedUrls_plain _ hcolon, hv, hsplit, entities_run (by decide) (by decide), hw]
  have hlBytes : ∀ b ∈ str "<CITE" ++ d :: w, isQuotedByte b = true := by
    rw [← hl, embeddedUrls_plain _ hcolon]
    exact entities_quoted hbytes
  have hinert : ∀ b, isQuotedByte b = true → isInertByte b = true := by
    refine forall_byte ?_
    decide +kernel
  have hstart : StartsIn opensText (str "<CITE" ++ d :: w) := ⟨ch '<', _, rfl, by decide⟩
  obtain ⟨st', _, hout⟩ := formatWikiLine_inert hstart (fun b hb => hinert b (hlBytes b hb)) hl
  have hpad : ∀ x, isQuotedByte x = false → x ≠ ch ' ' →
      x ∉ str " " ++ (str "<CITE" ++ d :: w) ++ str " " := by
    intro x hx hne hmem
    have hblank : x ∉ str " " := fun h => hne (List.mem_singleton.mp h)
    have hno := not_mem_of_bytes hlBytes hx
    rcases List.mem_append.mp hmem with hmem | hmem
    · exact (List.mem_append.mp hmem).elim hblank hno
    · exact hblank hmem
  have hmark : ∀ b ∈ str "<CITE" ++ [d], wordItem.takes b = false := by
    have hcite : ∀ b ∈ str "<CITE", wordItem.takes b = false := by decide
    have hd' : ∀ d, isEntityMark d → wordItem.takes d = false := by
      rintro d (rfl | rfl)
      · decide
      · decide
    intro b hb
    rcases List.mem_append.mp hb with hb | hb
    · exact hcite b hb
    · exact List.mem_singleton.mp hb ▸ hd' d hd
  have hline : str " " ++ (str "<CITE" ++ d :: w) ++ str " " =
      ch ' ' :: ((str "<CITE" ++ [d]) ++ (w ++ str " ")) := by
    simp [show str " " = [ch ' '] by decide]
  have hlead : ∃ w', (autoLinks env (str " " ++ (str "<CITE" ++ d :: w) ++ str " ") st').1 =
      ch ' ' :: ((str "<CITE" ++ [d]) ++ w') :=
    autoLinks_lead (hpad (ch '#') (by decide) (by decide)) hmark ⟨ch '<', _, rfl, by decide⟩ hline
      st'
  obtain ⟨w', hw'⟩ := hlead
  rw [emphasis_plain (hpad _ (by decide) (by decide)) (hpad _ (by decide) (by decide))
    (hpad _ (by decide) (by decide))] at hout
  refine ⟨d, w', hd, hout.trans (hw'.trans ?_)⟩
  simp [show str " <CITE" = ch ' ' :: str "<CITE" by decide]

/-! ### The condition -/

/-- Every single opening bracket has a blank after it. -/
def SinglesSpaced (t : Bytes) : Prop :=
  ∀ u v, t = u ++ ch '<' :: v → (∀ w, u ≠ w ++ [ch '<']) → Free (ch '<') v →
    StartsIn (isSpace · = true) v

/-- The text does not begin or end in a bracket that joins a tag, its runs are of two brackets at
most, and a single opening bracket has a blank after it. -/
structure KeepsQuote (t : Bytes) : Prop where
  first : Free (ch '>') t
  last : ∀ u, t ≠ u ++ [ch '<']
  opens : ¬ str "<<<" <:+: t
  closes : ¬ str ">>>" <:+: t
  singles : SinglesSpaced t

theorem QuoteText.split (h : QuoteText t) : ∃ g l, t = g ++ l ∧ ch '<' ∉ g ∧ ch '>' ∉ l := by
  by_cases hmem : ch '<' ∈ t
  · obtain ⟨g, v, rfl, hg⟩ := List.eq_append_cons_of_mem hmem
    have hv := h.noTag g v rfl
    exact ⟨g, ch '<' :: v, rfl, hg, by simp [hv, show ch '>' ≠ ch '<' by decide]⟩
  · exact ⟨t, [], by simp, hmem, by simp⟩

theorem SinglesSpaced.of_append (h : SinglesSpaced (u ++ v)) (hu : ∀ w, u ≠ w ++ [ch '<']) :
    SinglesSpaced v := by
  intro x w hv hx hw
  refine h (u ++ x) w (by rw [hv, List.append_assoc]) (fun z hz => ?_) hw
  rcases List.eq_nil_or_concat x with rfl | ⟨x, b, rfl⟩
  · exact hu z (by rwa [List.append_nil] at hz)
  · rw [List.concat_eq_append] at hz hx
    rw [← List.append_assoc] at hz
    exact hx x (by rw [List.singleton_inj.mp (List.append_inj' hz rfl).2])

theorem quiet_runs (h : SinglesSpaced l) : Quiet (gsubRuns (ch '<') (str "&lt;&lt;") l) := by
  have hrest : ∀ {a v : Bytes}, SinglesSpaced (a ++ v) → Free (ch '<') v → SinglesSpaced v := by
    intro a v hs hv u w heq hu hw
    cases u with
    | nil => exact absurd rfl (hv (ch '<') w heq)
    | cons b u =>
      refine hs (a ++ b :: u) w (by rw [heq, List.append_assoc]) (fun x hx => ?_) hw
      rcases List.eq_nil_or_concat (b :: u) with hnil | ⟨u', d, hd⟩
      · cases hnil
      · rw [List.concat_eq_append] at hd
        rw [hd, ← List.append_assoc] at hx
        exact hu u' (by rw [hd, List.singleton_inj.mp (List.append_inj' hx rfl).2])
  induction runView (ch '<') l with
  | nil => exact fun u v hv => absurd hv (by simp)
  | @other b t hb _ ih =>
    have ht : SinglesSpaced t := SinglesSpaced.of_append (u := [b]) h fun w hw => by
      cases w with
      | nil => exact hb (List.cons.inj hw).1
      | cons d w => exact absurd (List.cons.inj hw).2.symm (by simp)
    rw [gsubRuns_other hb]
    exact (ih ht).cons fun h => absurd h hb
  | @one v hv _ ih =>
    rw [gsubRuns_one hv]
    refine (ih (hrest (a := [ch '<']) h hv)).cons fun _ => ?_
    obtain ⟨d, w, rfl, hd⟩ := h [] v rfl (fun w hw => absurd hw (by simp)) hv
    rw [gsubRuns_other (hv d w rfl)]
    exact ⟨d, _, rfl, hd⟩
  | @many n v hv _ ih =>
    rw [gsubRuns_run n hv]
    exact (ih (hrest h hv)).after (by decide)

/-- The quoted text is between its tags, its brackets escaped. -/
def QuoteKept (env : FormatterEnv) (t : Bytes) (st : FormatterState) : Prop :=
  (formatWikiLine env (ch '>' :: t) st).1 =
    str " " ++ (str "<CITE>" ++ (escapeMarks t ++ str "</CITE><BR>")) ++ str " "

/-- The line is rendered as quoted text exactly when `embeddedHtml` makes that of it. -/
theorem quoteKept_embeddedHtml {e : Bytes} (he : embeddedHtml (blockQuote (ch '>' :: t)) = e)
    (hbytes : ∀ b ∈ e, isQuotedByte b = true) (hhead : ∃ v, e = ch '<' :: v) (hapart : Apart e)
    (hescaped : Escaped e) (env : FormatterEnv) (st : FormatterState) :
    QuoteKept env t st ↔ e = str "<CITE>" ++ (escapeMarks t ++ str "</CITE><BR>") := by
  have hl : entities (embeddedUrls env.cls (embeddedHtml (blockQuote (ch '>' :: t)))) = e := by
    rw [he, embeddedUrls_plain _ (not_mem_of_bytes hbytes (by decide)), hescaped.entities_eq]
  rw [QuoteKept,
    formatWikiLine_settled (settled_quoteLine hbytes hhead hapart st.insideNoAutoLink) hl]
  constructor
  · exact fun h => List.append_cancel_left (List.append_cancel_right h)
  · exact fun h => by rw [h]

/-- The brackets of the text are kept exactly when its runs are short. -/
theorem escapeMarks_runs (hg : ch '<' ∉ g) (hl : ch '>' ∉ l) (hamp : ch '&' ∉ g ++ l)
    (hopen : openingRuns l = x ++ [ch '<'])
    (h : escapeMarks (gsubRuns (ch '>') (str "&gt;&gt;") g ++ x) = escapeMarks (g ++ l)) :
    ¬ str "<<<" <:+: g ++ l ∧ ¬ str ">>>" <:+: g ++ l := by
  have hcutG : escapeMarks (gsubRuns (ch '>') (str "&gt;&gt;") g) =
      escapeMarks (gsubRuns (ch '>') [ch '>', ch '>'] g) := gsubRuns_flatMap (by decide) g
  have hcutL : escapeMarks (openingRuns l) =
      escapeMarks (gsubRuns (ch '<') [ch '<', ch '<'] (l ++ [ch '<'])) :=
    gsubRuns_flatMap (by decide) _
  have hbytes : ∀ {c y : Byte} {r s : Bytes}, y ∉ r → y ∉ s → y ∉ gsubRuns c r s :=
    fun {c y r s} hr hs hmem => gsubRuns_bytes (p := (· ≠ y)) (fun b hb h => hr (h ▸ hb))
      (fun b hb h => hs (h ▸ hb)) y hmem rfl
  have hampG : ch '&' ∉ g := fun hb => hamp (List.mem_append_left _ hb)
  have hampL' : ch '&' ∉ l := fun hb => hamp (List.mem_append_right g hb)
  have hampL : ch '&' ∉ l ++ [ch '<'] := by simp [hampL', show ch '&' ≠ ch '<' by decide]
  have hgtL : ch '>' ∉ l ++ [ch '<'] := by simp [hl, show ch '>' ≠ ch '<' by decide]
  -- both sides have the same number of entities
  have hcount : (gsubRuns (ch '>') [ch '>', ch '>'] g).count (ch '>') +
      (gsubRuns (ch '<') [ch '<', ch '<'] (l ++ [ch '<'])).count (ch '<') =
        g.count (ch '>') + (l.count (ch '<') + 1) := by
    have hall := congrArg (fun s => (s ++ escapeMarks [ch '<']).count (ch '&')) h
    simp only [escapeMarks_append, List.append_assoc] at hall
    rw [← escapeMarks_append x, ← hopen, hcutG, hcutL] at hall
    simp only [List.count_append] at hall
    rw [count_escapeMarks (hbytes (by decide) hampG), count_escapeMarks (hbytes (by decide) hampL),
      count_escapeMarks hampG, count_escapeMarks hampL',
      List.count_eq_zero.mpr (hbytes (by decide) hg), List.count_eq_zero.mpr hg,
      List.count_eq_zero.mpr (hbytes (by decide) hgtL), List.count_eq_zero.mpr hl,
      show (escapeMarks [ch '<']).count (ch '&') = 1 by decide] at hall
    omega
  obtain ⟨_, hleG, _⟩ := gsubRuns_cases (ch '>') g
  obtain ⟨_, hleL, _⟩ := gsubRuns_cases (ch '<') (l ++ [ch '<'])
  rw [List.count_append, List.count_singleton_self] at hleL
  constructor
  · intro hrun
    have hwithin : str "<<<" <:+: g ++ (l ++ [ch '<']) := by
      rw [← List.append_assoc]
      exact hrun.trans (List.prefix_append _ _).isInfix
    have hlt := (gsubRuns_cases (ch '<') _).2.2 hwithin
    rw [gsubRuns_absent hg, List.count_append, List.count_append, List.count_append,
      List.count_singleton_self] at hlt
    omega
  · intro hrun
    have hfree : Free (ch '>') l := fun b t hb h => hl (by simp [hb, h])
    have hsame : gsubRuns (ch '>') [ch '>', ch '>'] l = l := by
      have habsent := gsubRuns_absent hl [ch '>', ch '>'] []
      rwa [gsubRuns_nil, List.append_nil] at habsent
    have hlt := (gsubRuns_cases (ch '>') _).2.2 hrun
    rw [gsubRuns_append hfree, hsame, List.count_append, List.count_append] at hlt
    omega

/-- Where the last tag begins when the condition holds. -/
theorem openingRuns_quiet (hlast : ∀ u, l ≠ u ++ [ch '<']) :
    openingRuns l = gsubRuns (ch '<') (str "&lt;&lt;") l ++ [ch '<'] :=
  gsubRuns_concat hlast _

theorem quiet_unique {w : Bytes} (hw : Quiet w) (hq : ¬ StartsIn (isSpace · = true) q)
    (h : x ++ ch '<' :: q = w ++ [ch '<']) : q = [] ∧ x = w := by
  rcases List.eq_nil_or_concat q with rfl | ⟨q, b, rfl⟩
  · exact ⟨rfl, (List.append_inj' h rfl).1⟩
  · rw [List.concat_eq_append] at h hq
    have hsplit : x ++ ch '<' :: (q ++ [b]) = (x ++ ch '<' :: q) ++ [b] := by simp
    rw [hsplit] at h
    obtain ⟨d, z, rfl, hd⟩ := hw x q (List.append_inj' h rfl).1.symm
    exact absurd ⟨d, z ++ [b], rfl, hd⟩ hq

/-- A single opening bracket of the text is one of the quiet text before the last tag. -/
theorem singles_of_quiet (hg : ch '<' ∉ g) (hx : Quiet x) (hopen : openingRuns l = x ++ [ch '<'])
    (hlast : ∀ u, g ++ l ≠ u ++ [ch '<']) : SinglesSpaced (g ++ l) := by
  intro u v huv hu hv
  have hsplit : ∃ y, u = g ++ y ∧ l = y ++ ch '<' :: v := by
    rcases List.append_eq_append_iff.mp huv with ⟨y, hy, hz⟩ | ⟨y, hy, hz⟩
    · exact ⟨y, hy, hz⟩
    · cases y with
      | nil => exact ⟨[], by rw [hy]; simp, by simpa using hz.symm⟩
      | cons b y =>
        obtain ⟨rfl, _⟩ := List.cons.inj hz
        exact absurd (by rw [hy]; simp) hg
  obtain ⟨y, rfl, rfl⟩ := hsplit
  cases v with
  | nil => exact absurd (List.append_assoc ..).symm (hlast (g ++ y))
  | cons b v =>
    have hb := hv b v rfl
    have hruns : openingRuns (y ++ ch '<' :: b :: v) =
        gsubRuns (ch '<') (str "&lt;&lt;") y ++ ch '<' :: b ::
          gsubRuns (ch '<') (str "&lt;&lt;") (v ++ [ch '<']) := by
      have hline : (y ++ ch '<' :: b :: v) ++ [ch '<'] = y ++ ch '<' :: b :: (v ++ [ch '<']) := by
        simp
      rw [openingRuns, hline, gsubRuns_single (fun w hw => hu (g ++ w) (by rw [hw]; simp))
        (Free.of_ne hb _), gsubRuns_other hb]
    rw [hruns] at hopen
    rcases List.eq_nil_or_concat (gsubRuns (ch '<') (str "&lt;&lt;") (v ++ [ch '<'])) with
      hnil | ⟨z, d, hz⟩
    · rw [hnil] at hopen
      have hend : (gsubRuns (ch '<') (str "&lt;&lt;") y ++ [ch '<']) ++ [b] = x ++ [ch '<'] := by
        rw [← hopen]
        simp
      exact absurd (List.singleton_inj.mp (List.append_inj' hend rfl).2) hb
    · rw [hz, List.concat_eq_append] at hopen
      have hend : (gsubRuns (ch '<') (str "&lt;&lt;") y ++ ch '<' :: b :: z) ++ [d] =
          x ++ [ch '<'] := by
        rw [← hopen]
        simp
      obtain ⟨e, w, he, hspace⟩ := hx _ _ (List.append_inj' hend rfl).1.symm
      obtain ⟨rfl, _⟩ := List.cons.inj he
      exact ⟨b, v, rfl, hspace⟩

theorem runs_escaped (h : ∀ b ∈ g ++ l, isQuoteByte b = true) :
    Escaped (gsubRuns (ch '>') (str "&gt;&gt;") g) ∧ Escaped (openingRuns l) := by
  have hdouble : ∀ s, ch '&' ∉ s → ch '~' ∉ s → Escaped (escapeMarks s) := fun s hamp htilde =>
    (Escaped.of_plain hamp htilde).marks
  have hlt : Escaped (str "&lt;&lt;") := hdouble (str "<<") (by decide) (by decide)
  have hgt : Escaped (str "&gt;&gt;") := hdouble (str ">>") (by decide) (by decide)
  have hall : ∀ b ∈ g ++ (l ++ [ch '<']), isQuoteByte b = true := by
    intro b hb
    rw [← List.append_assoc] at hb
    rcases List.mem_append.mp hb with hb | hb
    · exact h b hb
    · rw [List.mem_singleton.mp hb]
      decide
  have hamp : ch '&' ∉ g ++ (l ++ [ch '<']) := not_mem_of_bytes hall (by decide)
  have htilde : ch '~' ∉ g ++ (l ++ [ch '<']) := not_mem_of_bytes hall (by decide)
  exact ⟨hgt.runs (.of_plain (by decide) (by decide)) (fun hb => hamp (List.mem_append_left _ hb))
      fun hb => htilde (List.mem_append_left _ hb),
    hlt.runs (.of_plain (by decide) (by decide)) (fun hb => hamp (List.mem_append_right g hb))
      fun hb => htilde (List.mem_append_right g hb)⟩

theorem runs_marked (h : ∀ b ∈ g ++ l, isQuoteByte b = true) :
    ∀ b ∈ gsubRuns (ch '>') (str "&gt;&gt;") g ++ openingRuns l, isMarkedByte b = true := by
  intro b hb
  rcases List.mem_append.mp hb with hb | hb
  · exact runs_text (by decide) (fun b hb => h b (List.mem_append_left _ hb)) b hb
  · exact openingRuns_text (fun b hb => h b (List.mem_append_right _ hb)) b hb

/-- What is left to compare when a tag begins in the text or after it. -/
theorem quoteKept_kept (h : ∀ b ∈ g ++ l, isQuoteByte b = true) (hg : ch '<' ∉ g)
    (hl : ch '>' ∉ l) (hfree : Free (ch '>') g) (hopen : openingRuns l = x ++ ch '<' :: q)
    (hx : Quiet x) (hq : ¬ StartsIn (isSpace · = true) q) (env : FormatterEnv)
    (st : FormatterState) :
    QuoteKept env (g ++ l) st ↔
      escapeMarks (gsubRuns (ch '>') (str "&gt;&gt;") g ++ x) = escapeMarks (g ++ l) ∧ q = [] := by
  obtain ⟨_, hbytes⟩ := embeddedHtml_quoteLine h hg hl
  have hline : embeddedHtml (blockQuote (ch '>' :: (g ++ l))) = _ :=
    (congrArg embeddedHtml (blockQuote_eq _)).trans (embeddedHtml_kept h hg hl hfree hopen hx hq)
  have hmarked := runs_marked h
  obtain ⟨hescG, hescL⟩ := runs_escaped h
  rw [hopen] at hmarked
  obtain ⟨hescX, hescQ⟩ := hescL.around hopen
  rw [embeddedHtml_kept h hg hl hfree hopen hx hq] at hbytes
  have hapart : Apart (str "<CITE>" ++ (escapeMarks (gsubRuns (ch '>') (str "&gt;&gt;") g ++ x) ++
      ([ch '<'] ++ (escapeMarks q ++ str "/CITE><BR>")))) := by
    refine .append (by decide +kernel) (.append (.of_marks fun b hb => hmarked b ?_)
      (.append (by decide +kernel) (.append (.of_marks fun b hb => hmarked b ?_)
        (by decide +kernel))))
    · rw [← List.append_assoc]
      exact List.mem_append_left _ hb
    · simp [hb]
  have hescaped : Escaped (str "<CITE>" ++ (escapeMarks (gsubRuns (ch '>') (str "&gt;&gt;") g ++
      x) ++ ([ch '<'] ++ (escapeMarks q ++ str "/CITE><BR>")))) :=
    .append (.of_plain (by decide) (by decide)) (.append (hescG.append hescX).marks
      (.append (.of_plain (by decide) (by decide)) (hescQ.marks.append
        (.of_plain (by decide) (by decide)))))
  rw [quoteKept_embeddedHtml hline hbytes ⟨_, rfl⟩ hapart hescaped,
    show str "</CITE><BR>" = ch '<' :: str "/CITE><BR>" by decide]
  constructor
  · intro heq
    obtain ⟨htext, hrest⟩ := append_mark_inj (escapeMarks_lt _) (escapeMarks_lt _)
      (List.append_cancel_left heq)
    have hnil : escapeMarks q = [] :=
      List.append_cancel_right (hrest.trans (List.nil_append _).symm)
    exact ⟨htext, escapeMarks_nil_iff.mp hnil⟩
  · rintro ⟨htext, rfl⟩
    rw [htext]
    rfl

/-- Without a tag in the text or after it, the last tag is lost. -/
theorem not_quoteKept_merged (h : ∀ b ∈ g ++ l, isQuoteByte b = true) (hg : ch '<' ∉ g)
    (hl : ch '>' ∉ l) (hfree : Free (ch '>') g) (hquiet : Quiet (openingRuns l))
    (env : FormatterEnv) (st : FormatterState) : ¬ QuoteKept env (g ++ l) st := by
  obtain ⟨_, hbytes⟩ := embeddedHtml_quoteLine h hg hl
  have hline : embeddedHtml (blockQuote (ch '>' :: (g ++ l))) = _ :=
    (congrArg embeddedHtml (blockQuote_eq _)).trans (embeddedHtml_merged h hg hl hfree hquiet)
  obtain ⟨hescG, hescL⟩ := runs_escaped h
  rw [embeddedHtml_merged h hg hl hfree hquiet] at hbytes
  have hapart : Apart (str "<CITE>" ++ (escapeMarks (gsubRuns (ch '>') (str "&gt;&gt;") g ++
      openingRuns l) ++ str "/CITE&gt;<BR>")) :=
    .append (by decide +kernel) (.append (.of_marks (runs_marked h)) (by decide +kernel))
  have hend : Escaped (str "/CITE&gt;<BR>") :=
    .append (u := str "/CITE") (.of_plain (by decide) (by decide))
      (.mark (b := ch 'g') (by decide) (.of_plain (v := str "<BR>") (by decide) (by decide)))
  have hescaped : Escaped (str "<CITE>" ++ (escapeMarks (gsubRuns (ch '>') (str "&gt;&gt;") g ++
      openingRuns l) ++ str "/CITE&gt;<BR>")) :=
    .append (.of_plain (by decide) (by decide)) (.append (hescG.append hescL).marks hend)
  rw [quoteKept_embeddedHtml hline hbytes ⟨_, rfl⟩ hapart hescaped]
  intro heq
  have hcount := congrArg (List.count (ch '<')) (List.append_cancel_left heq)
  rw [List.count_append, List.count_append, List.count_eq_zero.mpr (escapeMarks_lt _),
    List.count_eq_zero.mpr (escapeMarks_lt _)] at hcount
  exact absurd hcount (by decide)

/-- A quoted text keeps its markup exactly when no bracket joins a tag, no run is longer than two
and no single opening bracket begins a tag. -/
theorem quoteKept_iff (h : QuoteText t) (env : FormatterEnv) (st : FormatterState) :
    QuoteKept env t st ↔ KeepsQuote t := by
  obtain ⟨g, l, rfl, hg, hl⟩ := h.split
  have hline : blockQuote (ch '>' :: (g ++ l)) = quoteLine g l := blockQuote_eq _
  have hamp : ch '&' ∉ g ++ l := not_mem_of_bytes h.bytes (by decide)
  obtain ⟨_, hbytes⟩ := embeddedHtml_quoteLine h.bytes hg hl
  have hlast : KeepsQuote (g ++ l) → ∀ u, l ≠ u ++ [ch '<'] := fun hkept u hu =>
    hkept.last (g ++ u) (by rw [hu, List.append_assoc])
  have hgEnd : ∀ w, g ≠ w ++ [ch '<'] := fun w hw => hg (by simp [hw])
  by_cases hfree : Free (ch '>') g
  · rcases quiet_split (openingRuns l) with hquiet | ⟨x, q, hopen, hx, hq⟩
    · refine iff_of_false (not_quoteKept_merged h.bytes hg hl hfree hquiet env st) fun hkept => ?_
      obtain ⟨d, w, hd, _⟩ := hquiet _ [] (openingRuns_quiet (hlast hkept))
      cases hd
    · rw [quoteKept_kept h.bytes hg hl hfree hopen hx hq]
      constructor
      · rintro ⟨htext, rfl⟩
        have hend : ∀ u, g ++ l ≠ u ++ [ch '<'] := by
          intro u hu
          rcases List.eq_nil_or_concat l with rfl | ⟨l, b, rfl⟩
          · exact hgEnd u (by rwa [List.append_nil] at hu)
          · rw [List.concat_eq_append, ← List.append_assoc] at hu
            obtain rfl := List.singleton_inj.mp (List.append_inj' hu rfl).2
            have hrun : List.concat l (ch '<') ++ [ch '<'] = l ++ [ch '<', ch '<'] := by simp
            obtain ⟨w, hw⟩ := gsubRuns_end (ch '<') (str "&lt;&lt;") l
            rw [openingRuns, hrun, hw, show str "&lt;&lt;" = str "&lt;&lt" ++ [ch ';'] by decide,
              ← List.append_assoc] at hopen
            exact absurd (List.singleton_inj.mp (List.append_inj' hopen rfl).2) (by decide)
        obtain ⟨hopens, hcloses⟩ := escapeMarks_runs hg hl hamp hopen htext
        exact ⟨hfree.append fun b t hb hgt => hl (by simp [hb, hgt]), hend, hopens, hcloses,
          singles_of_quiet hg hx hopen hend⟩
      · intro hkept
        have hquiet := openingRuns_quiet (hlast hkept)
        obtain ⟨rfl, rfl⟩ := quiet_unique (quiet_runs (hkept.singles.of_append hgEnd)) hq
          (hopen.symm.trans hquiet)
        have hopens : gsubRuns (ch '<') [ch '<', ch '<'] l = l :=
          (gsubRuns_cases (ch '<') l).1 fun hrun =>
            hkept.opens (hrun.trans (List.suffix_append _ _).isInfix)
        have hcloses : gsubRuns (ch '>') [ch '>', ch '>'] g = g :=
          (gsubRuns_cases (ch '>') g).1 fun hrun =>
            hkept.closes (hrun.trans (List.prefix_append _ _).isInfix)
        have hescG : escapeMarks (gsubRuns (ch '>') (str "&gt;&gt;") g) =
            escapeMarks (gsubRuns (ch '>') [ch '>', ch '>'] g) := gsubRuns_flatMap (by decide) g
        have hescL : escapeMarks (gsubRuns (ch '<') (str "&lt;&lt;") l) =
            escapeMarks (gsubRuns (ch '<') [ch '<', ch '<'] l) := gsubRuns_flatMap (by decide) l
        rw [escapeMarks_append, escapeMarks_append, hescG, hescL, hopens, hcloses]
        exact ⟨rfl, rfl⟩
  · -- the first bracket of the text joins the first tag
    have hfirst : ∃ g', g = ch '>' :: g' := by
      by_contra hnone
      refine hfree fun b t hb hgt => hnone ⟨t, ?_⟩
      rw [hb, hgt]
    obtain ⟨g, rfl⟩ := hfirst
    obtain ⟨v, hv⟩ := embeddedHtml_joined h.bytes hg hl
    rw [← hline] at hv hbytes
    obtain ⟨d, w, hd, hout⟩ := formatWikiLine_joined hv hbytes env st
    refine iff_of_false (fun hkept => ?_) fun hkept => hkept.first _ _ rfl rfl
    rw [QuoteKept, hout] at hkept
    have hsplit : str " " ++ (str "<CITE>" ++ (escapeMarks (ch '>' :: g ++ l) ++
        str "</CITE><BR>")) ++ str " " = str " <CITE" ++ ch '>' ::
          (escapeMarks (ch '>' :: g ++ l) ++ str "</CITE><BR>" ++ str " ") := by
      rw [show str "<CITE>" = str "<CITE" ++ [ch '>'] by decide,
        show str " <CITE" = str " " ++ str "<CITE" by decide]
      simp
    rw [hsplit] at hkept
    obtain ⟨rfl, _⟩ := List.cons.inj (List.append_cancel_left hkept)
    exact absurd hd (by decide)

theorem quoteKept_shift : QuoteKept (emptyEnv .wiki) (str "shift a >> b") {} := by
  have hnone : ∀ u v, str "shift a >> b" ≠ u ++ ch '<' :: v := by
    intro u v h
    have habsent : ch '<' ∉ str "shift a >> b" := by decide
    exact habsent (by simp [h])
  have hquote : QuoteText (str "shift a >> b") :=
    ⟨by decide +kernel, fun u v h => absurd h (hnone u v)⟩
  refine (quoteKept_iff hquote (emptyEnv .wiki) {}).mpr ⟨?_, fun u => hnone u [], by decide,
    by decide, fun u v h => absurd h (hnone u v)⟩
  intro b v h
  obtain ⟨rfl, _⟩ := List.cons.inj h
  decide

/-- A nested quote loses its first tag. -/
theorem quoteKept_nested :
    QuoteText (str "> deeper") ∧ ¬ QuoteKept (emptyEnv .wiki) (str "> deeper") {} := by
  refine ⟨⟨by decide +kernel, fun u v h => ?_⟩, ?_⟩
  · have habsent : ch '<' ∉ str "> deeper" := by decide
    exact absurd (by simp [h]) habsent
  · unfold QuoteKept
    decide +kernel

end MoonWiki
