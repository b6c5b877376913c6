import MoonWiki.Lua.Runs
import MoonWiki.LineUrls

/-! The escaping of plain text, and the texts that come back from it. -/
namespace MoonWiki
open Lua

variable {s line : Bytes}

/-- The counter skips what is left of an entity. -/
def decodeEscapesFrom : Nat → Bytes → Bytes
  | _, [] => []
  | k + 1, _ :: s => decodeEscapesFrom k s
  | 0, b :: s =>
    if str "&lt;" <+: b :: s then ch '<' :: decodeEscapesFrom 3 s
    else if str "&amp;" <+: b :: s then ch '&' :: decodeEscapesFrom 4 s
    else b :: decodeEscapesFrom 0 s

/-- The text that `&lt;` and `&amp;` stand for. -/
def decodeEscapes (s : Bytes) : Bytes := decodeEscapesFrom 0 s

/-- Without the padding and its entities, the text is this line. -/
def Restores (out line : Bytes) : Prop :=
  ∃ text, out = str " " ++ text ++ str " " ∧ decodeEscapes text = line

/-- Lower-case letters, digits, blanks, and four marks. -/
def isPlainByte (b : Byte) : Bool :=
  isLower b || isDigit b || isSpace b || (str "<&$~").contains b

theorem decode_lt (s : Bytes) : decodeEscapes (str "&lt;" ++ s) = ch '<' :: decodeEscapes s := by
  have hsplit : str "&lt;" ++ s = ch '&' :: ch 'l' :: ch 't' :: ch ';' :: s := rfl
  have hp : str "&lt;" <+: ch '&' :: ch 'l' :: ch 't' :: ch ';' :: s := ⟨s, rfl⟩
  rw [hsplit, decodeEscapes, decodeEscapesFrom, if_pos hp]
  rfl

theorem decode_amp (s : Bytes) :
    decodeEscapes (str "&amp;" ++ s) = ch '&' :: decodeEscapes s := by
  have hsplit : str "&amp;" ++ s = ch '&' :: ch 'a' :: ch 'm' :: ch 'p' :: ch ';' :: s := rfl
  have hp : str "&amp;" <+: ch '&' :: ch 'a' :: ch 'm' :: ch 'p' :: ch ';' :: s := ⟨s, rfl⟩
  have hlt : ¬ str "&lt;" <+: ch '&' :: ch 'a' :: ch 'm' :: ch 'p' :: ch ';' :: s := by
    rintro ⟨t, ht⟩
    exact absurd (List.cons.inj (List.cons.inj ht).2).1 (by decide)
  rw [hsplit, decodeEscapes, decodeEscapesFrom, if_neg hlt, if_pos hp]
  rfl

theorem decode_copy {b : Byte} (hlt : ¬ str "&lt;" <+: b :: s) (hamp : ¬ str "&amp;" <+: b :: s) :
    decodeEscapes (b :: s) = b :: decodeEscapes s :=
  (if_neg hlt).trans (if_neg hamp)

theorem decode_other {b : Byte} (hb : b ≠ ch '&') (s : Bytes) :
    decodeEscapes (b :: s) = b :: decodeEscapes s := by
  refine decode_copy ?_ ?_
  · rintro ⟨_, ht⟩
    exact hb (List.cons.inj ht).1.symm
  · rintro ⟨_, ht⟩
    exact hb (List.cons.inj ht).1.symm

/-! ### Runs of brackets -/

/-- A run of brackets is cut to two. -/
def cutRuns (s : Bytes) : Bytes := replaceAll (pat "(<<+)") (fun _ => str "<<") s

/-- The brackets of a text escaped. -/
def escapeLt (s : Bytes) : Bytes := s.flatMap fun b => if b = ch '<' then str "&lt;" else [b]

theorem gsubStr_lt (s : Bytes) : gsubStr (pat "<") (str "&lt;") s = escapeLt s := by
  have hpat : pat "<" = ⟨false, [.single (.lit (ch '<')) .one]⟩ := by decide
  rw [hpat, gsubStr_single _ (by decide), escapeLt]
  congr 1
  funext b
  by_cases hb : b = ch '<'
  · simp [singleMatch, hb]
  · simp [singleMatch, hb, Ne.symm hb]

theorem escapeLt_cutRuns (s : Bytes) :
    gsubStr (pat "<") (str "&lt;")
        (gsubStr (pat "(<<+)") (rep (str "&lt;") (str "%1").length) s) = escapeLt (cutRuns s) := by
  have hrepl : rep (str "&lt;") (str "%1").length = str "&lt;&lt;" := by decide
  rw [gsubStr_lt, hrepl, gsubStr, cutRuns, replaceAll, replaceAll, escapeLt, escapeLt,
    List.flatMap_assoc, List.flatMap_assoc]
  refine List.flatMap_congr fun piece _ => ?_
  cases piece with
  | copy b => rfl
  | hit m =>
    have hadd : addS m (str "&lt;&lt;") = str "&lt;&lt;" := addS_plain m (by decide)
    simp only [hadd]
    decide

def runItems : List Item :=
  [.startCapture, .single (.lit (ch '<')) .one, .single (.lit (ch '<')) .plus, .endCapture]

theorem cutRuns_eq (s : Bytes) : cutRuns s = gsubRuns (ch '<') (str "<<") s := by
  rw [cutRuns, show pat "(<<+)" = ⟨false, runItems⟩ by decide]
  rfl

theorem cutRuns_other {b : Byte} (hb : b ≠ ch '<') (s : Bytes) :
    cutRuns (b :: s) = b :: cutRuns s := by
  rw [cutRuns_eq, cutRuns_eq, gsubRuns_other hb]

theorem cutRuns_cases (s : Bytes) :
    (¬ str "<<<" <:+: s → cutRuns s = s) ∧
      (cutRuns s).count (ch '<') ≤ s.count (ch '<') ∧
      (str "<<<" <:+: s → (cutRuns s).count (ch '<') < s.count (ch '<')) := by
  rw [cutRuns_eq]
  exact gsubRuns_cases (ch '<') s

/-! ### Entities -/

def namedItems : List Item :=
  [.single (.lit (ch '&')) .one, .startCapture, .single (.cls (ch 'w')) .one,
    .single (.cls (ch 'w')) .minus, .endCapture, .single (.lit (ch ';')) .one]

theorem named_pattern : pat "&(%w%w-);" = ⟨false, namedItems⟩ := by decide

/-- An entity of two letters or digits. -/
theorem matchHere_named {b d : Byte} (hb : isAlnum b = true) (hd : isAlnum d = true) (t : Bytes) :
    matchHere namedItems (ch '&' :: b :: d :: ch ';' :: t) =
      some ⟨[ch '&', b, d, ch ';'], [[b, d]], t⟩ := by
  have hend : ∀ e, isAlnum e = true → singleMatch e (.lit (ch ';')) = false := fun e he =>
    beq_false_of_ne (ne_of_test he (by decide)).symm
  have hlong : doMatch [.endCapture, .single (.lit (ch ';')) .one]
      ([] ++ [.unfinished (b :: d :: ch ';' :: t)]) (d :: ch ';' :: t) = none := by
    refine (doMatch_endCapture [b] _).trans ?_
    rw [doMatch, expand, hend d hd]
    rfl
  have hshort : doMatch [.endCapture, .single (.lit (ch ';')) .one]
      ([] ++ [.unfinished (b :: d :: ch ';' :: t)]) (ch ';' :: t) = some (t, [.done [b, d]]) :=
    (doMatch_endCapture [b, d] _).trans (doMatch_one (by decide))
  have hfirst : singleMatch b (.cls (ch 'w')) = true := hb
  have hsecond : singleMatch d (.cls (ch 'w')) = true := hd
  have hmatch : doMatch namedItems [] ([ch '&', b, d, ch ';'] ++ t) = some (t, [.done [b, d]]) := by
    have hsplit : [ch '&', b, d, ch ';'] ++ t = ch '&' :: b :: d :: ch ';' :: t := rfl
    rw [hsplit, namedItems, doMatch_one (by decide), doMatch, doMatch_one hfirst, doMatch, expand,
      minExpand, hlong]
    simp only
    rw [if_pos hsecond, minExpand, hshort]
  exact matchHere_of_doMatch hmatch

theorem matchHere_named_lt (t : Bytes) :
    matchHere namedItems (str "&lt;" ++ t) = some ⟨str "&lt;", [str "lt"], t⟩ :=
  matchHere_named (by decide) (by decide) t

theorem plain_facts (b : Byte) (h : isPlainByte b = true) :
    b ≠ ch ';' ∧ b ≠ ch '#' ∧ b ≠ ch '>' := by
  revert h
  revert b
  refine forall_byte ?_
  decide +kernel

/-- A letter or digit is not followed by a semicolon. -/
theorem escapeLt_semicolon (hs : ∀ b ∈ s, isPlainByte b = true) {x y : Bytes}
    (hx : ∀ b ∈ x, isAlnum b = true) : escapeLt s ≠ x ++ ch ';' :: y := by
  intro h
  induction s generalizing x with
  | nil => simp [escapeLt] at h
  | cons b s ih =>
    have hrest : ∀ d ∈ s, isPlainByte d = true := fun d hd => hs d (List.mem_cons_of_mem _ hd)
    by_cases hb : b = ch '<'
    · have hhead : escapeLt (b :: s) = ch '&' :: (str "lt;" ++ escapeLt s) := by
        simp only [escapeLt, List.flatMap_cons, hb, ↓reduceIte]
        rfl
      rw [hhead] at h
      cases x with
      | nil => exact absurd (List.cons.inj h).1 (by decide)
      | cons d x =>
        obtain ⟨rfl, _⟩ := List.cons.inj h
        exact absurd (hx _ (List.mem_cons_self ..)) (by decide)
    · have hhead : escapeLt (b :: s) = b :: escapeLt s := by simp [escapeLt, hb]
      rw [hhead] at h
      cases x with
      | nil => exact (plain_facts b (hs b (List.mem_cons_self ..))).1 (List.cons.inj h).1
      | cons d x =>
        obtain ⟨rfl, htail⟩ := List.cons.inj h
        exact ih hrest (fun e he => hx e (List.mem_cons_of_mem _ he)) htail

/-- An ampersand of the text begins no entity. -/
theorem matchHere_named_none (hs : ∀ b ∈ s, isPlainByte b = true) :
    matchHere namedItems (ch '&' :: escapeLt s) = none := by
  refine matchHere_eq_none ?_
  cases hd : doMatch namedItems [] (ch '&' :: escapeLt s) with
  | none => rfl
  | some r =>
    rw [namedItems, doMatch_one (by decide), doMatch] at hd
    obtain ⟨b, t, ht, hb, hd⟩ := doMatch_one_sound hd
    obtain ⟨u, v, rfl, hu, hd⟩ := expand_sound hd
    rw [doMatch] at hd
    obtain ⟨c, w, rfl, hc, _⟩ := doMatch_one_sound hd
    obtain rfl : ch ';' = c := by simpa [singleMatch] using hc
    refine absurd ht (escapeLt_semicolon (x := b :: u) (y := w) hs fun d hd => ?_)
    rcases List.mem_cons.mp hd with rfl | hd
    · exact hb
    · exact hu d hd

/-- What stands for a byte before the tokens are put back. -/
def entityByte (b : Byte) : Bytes :=
  if b = ch '<' then str "~$~lt;" else if b = ch '&' then str "&amp;" else [b]

theorem gsubStr_named (hs : ∀ b ∈ s, isPlainByte b = true) :
    gsubStr (pat "&(%w%w-);") (transToken ++ str "%1;") (escapeLt s) =
      s.flatMap fun b => if b = ch '<' then str "~$~lt;" else [b] := by
  rw [named_pattern, gsubStr]
  induction s with
  | nil => rfl
  | cons b s ih =>
    have hrest : ∀ d ∈ s, isPlainByte d = true := fun d hd => hs d (List.mem_cons_of_mem _ hd)
    by_cases hb : b = ch '<'
    · have hhead : escapeLt (b :: s) = str "&lt;" ++ escapeLt s := by
        simp only [escapeLt, List.flatMap_cons, hb, ↓reduceIte]
      rw [hhead, replaceAll_hit (matchHere_named_lt _) (List.cons_ne_nil _ _), ih hrest,
        List.flatMap_cons, if_pos hb]
      rfl
    · have hhead : escapeLt (b :: s) = b :: escapeLt s := by simp [escapeLt, hb]
      have hmiss : matchHere namedItems (b :: escapeLt s) = none := by
        by_cases hamp : b = ch '&'
        · rw [hamp]
          exact matchHere_named_none hrest
        · have hfirst : headSingle namedItems = some (.lit (ch '&')) := by decide
          refine matchHere_head hfirst fun d t hd => ?_
          obtain ⟨rfl, _⟩ := List.cons.inj hd
          exact beq_false_of_ne (Ne.symm hamp)
      rw [hhead, replaceAll_miss hmiss, ih hrest, List.flatMap_cons, if_neg hb]
      rfl

/-- The text before the tokens are put back. -/
theorem entities_escapeLt (hs : ∀ b ∈ s, isPlainByte b = true) :
    entities (escapeLt s) = gsubStr (pat "~$~") (str "&") (s.flatMap entityByte) := by
  have hamp : ∀ t, gsubStr (pat "&") (str "&amp;") t =
      t.flatMap fun b => if b = ch '&' then str "&amp;" else [b] := by
    intro t
    have hpat : pat "&" = ⟨false, [.single (.lit (ch '&')) .one]⟩ := by decide
    rw [hpat, gsubStr_single _ (by decide)]
    congr 1
    funext b
    by_cases hb : b = ch '&'
    · simp [singleMatch, hb]
    · simp [singleMatch, hb, Ne.symm hb]
  have hnumber : gsubStr (pat "&#(%d+);") (transToken ++ str "#%1;")
      (s.flatMap fun b => if b = ch '<' then str "~$~lt;" else [b]) =
        s.flatMap fun b => if b = ch '<' then str "~$~lt;" else [b] := by
    refine replaceAll_misses (.of_needs (x := ch '#') (by decide) fun hmem => ?_) _
    obtain ⟨b, hb, hmem⟩ := List.mem_flatMap.mp hmem
    split_ifs at hmem
    · exact absurd hmem (by decide)
    · exact (plain_facts b (hs b hb)).2.1 (List.mem_singleton.mp hmem).symm
  have hbyte : ∀ b : Byte, (if b = ch '<' then str "~$~lt;" else [b]).flatMap
      (fun b => if b = ch '&' then str "&amp;" else [b]) = entityByte b := by
    intro b
    rw [entityByte]
    split_ifs with hb hamp
    · decide
    · simp [hamp]
    · simp [hamp]
  rw [entities, gsubStr_named hs, hnumber, hamp, List.flatMap_assoc]
  simp only [hbyte]

/-! ### Tokens -/

/-- The text with the tokens put back. -/
def restored (s : Bytes) : Bytes := gsubStr (pat "~$~") (str "&") (s.flatMap entityByte)

theorem token_pattern : pat "~$~" = ⟨false, literalItems (str "~$~")⟩ := by decide

theorem token_hit (t : Bytes) :
    gsubStr (pat "~$~") (str "&") (str "~$~" ++ t) = ch '&' :: gsubStr (pat "~$~") (str "&") t := by
  have hm : matchHere (literalItems (str "~$~")) (str "~$~" ++ t) =
      some ⟨str "~$~", [str "~$~"], t⟩ := by
    rw [matchHere_literal, if_pos (List.prefix_append _ t), List.drop_left]
  rw [token_pattern, gsubStr, replaceAll_hit hm (List.cons_ne_nil _ _)]
  rfl

theorem token_run {u : Bytes} (hu : ch '~' ∉ u) (v : Bytes) :
    gsubStr (pat "~$~") (str "&") (u ++ v) = u ++ gsubStr (pat "~$~") (str "&") v := by
  have hfirst : headSingle (literalItems (str "~$~")) = some (.lit (ch '~')) := by decide
  rw [token_pattern]
  exact replaceAll_run hfirst (fun b hb => beq_false_of_ne fun h => hu (h ▸ hb)) _ v

theorem token_miss {b : Byte} {t : Bytes} (h : ¬ str "~$~" <+: b :: t) :
    gsubStr (pat "~$~") (str "&") (b :: t) = b :: gsubStr (pat "~$~") (str "&") t := by
  have hm : matchHere (literalItems (str "~$~")) (b :: t) = none := by
    rw [matchHere_literal, if_neg h]
  rw [token_pattern, gsubStr, replaceAll_miss hm]
  rfl

theorem restored_lt (s : Bytes) : restored (ch '<' :: s) = str "&lt;" ++ restored s := by
  have hsplit : (ch '<' :: s).flatMap entityByte =
      str "~$~" ++ (str "lt;" ++ s.flatMap entityByte) := rfl
  rw [restored, hsplit, token_hit, token_run (by decide)]
  rfl

theorem restored_amp (s : Bytes) : restored (ch '&' :: s) = str "&amp;" ++ restored s := by
  have hsplit : (ch '&' :: s).flatMap entityByte = str "&amp;" ++ s.flatMap entityByte := rfl
  rw [restored, hsplit, token_run (by decide)]
  rfl

theorem restored_token (s : Bytes) : restored (str "~$~" ++ s) = ch '&' :: restored s := by
  have hsplit : (str "~$~" ++ s).flatMap entityByte = str "~$~" ++ s.flatMap entityByte := rfl
  rw [restored, hsplit, token_hit]
  rfl

theorem restored_tokenLt (s : Bytes) : restored (str "~$<" ++ s) = str "&$~lt;" ++ restored s := by
  have hsplit : (str "~$<" ++ s).flatMap entityByte =
      str "~$~" ++ (str "$" ++ (ch '~' :: (str "lt;" ++ s.flatMap entityByte))) := rfl
  have hno : ¬ str "~$~" <+: ch '~' :: (str "lt;" ++ s.flatMap entityByte) := by
    rintro ⟨t, ht⟩
    exact absurd (List.cons.inj (List.cons.inj ht).2).1 (by decide)
  rw [restored, hsplit, token_hit, token_run (by decide), token_miss hno, token_run (by decide)]
  rfl

/-- The first byte of an image shows the first byte of the text. -/
theorem entityByte_head {x : Byte} {y : Bytes} (h : s.flatMap entityByte = x :: y) :
    ∃ c t, s = c :: t ∧ (c = x ∧ y = t.flatMap entityByte ∨ c = ch '<' ∧ x = ch '~' ∨
      c = ch '&' ∧ x = ch '&') := by
  cases s with
  | nil => cases h
  | cons c t =>
    refine ⟨c, t, rfl, ?_⟩
    rw [List.flatMap_cons] at h
    by_cases hlt : c = ch '<'
    · subst hlt
      exact .inr (.inl ⟨rfl, (List.cons.inj h).1.symm⟩)
    · by_cases hamp : c = ch '&'
      · subst hamp
        exact .inr (.inr ⟨rfl, (List.cons.inj h).1.symm⟩)
      · rw [entityByte, if_neg hlt, if_neg hamp] at h
        obtain ⟨rfl, hy⟩ := List.cons.inj h
        exact .inl ⟨rfl, hy.symm⟩

theorem restored_copy {b : Byte} (hlt : b ≠ ch '<') (hamp : b ≠ ch '&')
    (htoken : ¬ str "~$~" <+: b :: s) (htoken' : ¬ str "~$<" <+: b :: s) :
    restored (b :: s) = b :: restored s := by
  have hbyte : entityByte b = [b] := by rw [entityByte, if_neg hlt, if_neg hamp]
  rw [restored, List.flatMap_cons, hbyte, List.singleton_append, token_miss]
  · rfl
  rintro ⟨t, ht⟩
  obtain ⟨rfl, hdollar⟩ := List.cons.inj ht
  obtain ⟨c, u, rfl, hc⟩ := entityByte_head hdollar.symm
  obtain ⟨rfl, htilde⟩ : c = ch '$' ∧ ch '~' :: t = u.flatMap entityByte := by
    rcases hc with ⟨rfl, hu⟩ | ⟨_, h⟩ | ⟨_, h⟩
    · exact ⟨rfl, hu⟩
    · exact absurd h (by decide)
    · exact absurd h (by decide)
  obtain ⟨d, v, rfl, hd⟩ := entityByte_head htilde.symm
  rcases hd with ⟨rfl, _⟩ | ⟨rfl, _⟩ | ⟨_, h⟩
  · exact htoken ⟨v, rfl⟩
  · exact htoken' ⟨v, rfl⟩
  · exact absurd h (by decide)

/-- How a text can begin. -/
inductive Start (b : Byte) (t : Bytes) : Prop
  | token (u : Bytes) (h : b :: t = str "~$~" ++ u)
  | tokenLt (u : Bytes) (h : b :: t = str "~$<" ++ u)
  | lt (h : b = ch '<')
  | amp (h : b = ch '&')
  | copy (h : restored (b :: t) = b :: restored t) (hamp : b ≠ ch '&')
    (htoken : ¬ str "~$~" <+: b :: t) (htokenLt : ¬ str "~$<" <+: b :: t)

theorem start (b : Byte) (t : Bytes) : Start b t := by
  by_cases htoken : str "~$~" <+: b :: t
  · obtain ⟨u, hu⟩ := htoken
    exact .token u hu.symm
  by_cases htokenLt : str "~$<" <+: b :: t
  · obtain ⟨u, hu⟩ := htokenLt
    exact .tokenLt u hu.symm
  by_cases hlt : b = ch '<'
  · exact .lt hlt
  by_cases hamp : b = ch '&'
  · exact .amp hamp
  exact .copy (restored_copy hlt hamp htoken htokenLt) hamp htoken htokenLt

/-- Letters are not followed by a semicolon. -/
theorem restored_semicolon (hs : ∀ b ∈ s, isPlainByte b = true) {x y : Bytes}
    (hx : ∀ b ∈ x, isLower b = true) : restored s ≠ x ++ ch ';' :: y := by
  have hamp : ∀ (x : Bytes) r, (∀ b ∈ x, isLower b = true) → ch '&' :: r ≠ x ++ ch ';' :: y := by
    intro x r hx h
    cases x with
    | nil => exact absurd (List.cons.inj h).1 (by decide)
    | cons d x =>
      obtain ⟨rfl, _⟩ := List.cons.inj h
      exact absurd (hx _ (List.mem_cons_self ..)) (by decide)
  induction s generalizing x with
  | nil =>
    have hnil : restored [] = [] := by decide
    rw [hnil]
    simp
  | cons b t ih =>
    intro h
    cases start b t with
    | token u hu =>
      rw [hu, restored_token] at h
      exact hamp x _ hx h
    | tokenLt u hu =>
      rw [hu, restored_tokenLt] at h
      exact hamp x _ hx h
    | lt hb =>
      rw [hb, restored_lt] at h
      exact hamp x _ hx h
    | amp hb =>
      rw [hb, restored_amp] at h
      exact hamp x _ hx h
    | copy hcopy =>
      rw [hcopy] at h
      cases x with
      | nil => exact (plain_facts b (hs b (List.mem_cons_self ..))).1 (List.cons.inj h).1
      | cons d x =>
        exact ih (fun e he => hs e (List.mem_cons_of_mem _ he))
          (fun e he => hx e (List.mem_cons_of_mem _ he)) (List.cons.inj h).2

theorem decode_restored_amp (hs : ∀ b ∈ s, isPlainByte b = true) :
    decodeEscapes (ch '&' :: restored s) = ch '&' :: decodeEscapes (restored s) := by
  refine decode_copy ?_ ?_
  · rintro ⟨t, ht⟩
    exact restored_semicolon (x := str "lt") (y := t) hs (by decide) (List.cons.inj ht).2.symm
  · rintro ⟨t, ht⟩
    exact restored_semicolon (x := str "amp") (y := t) hs (by decide) (List.cons.inj ht).2.symm

theorem decode_restored_tokenLt (s : Bytes) :
    decodeEscapes (restored (str "~$<" ++ s)) = str "&$~lt;" ++ decodeEscapes (restored s) := by
  have hsplit : str "&$~lt;" ++ restored s = ch '&' :: ch '$' :: (str "~lt;" ++ restored s) := rfl
  have hno : ∀ e : Bytes, e <+: ch '&' :: ch '$' :: (str "~lt;" ++ restored s) →
      ∀ d f, e = ch '&' :: d :: f → d = ch '$' := by
    rintro e ⟨r, hr⟩ d f rfl
    exact (List.cons.inj (List.cons.inj hr).2).1
  have hrest : decodeEscapes (ch '$' :: (str "~lt;" ++ restored s)) =
      str "$~lt;" ++ decodeEscapes (restored s) := by
    have hbytes : ∀ u : Bytes, ch '&' ∉ u → ∀ v,
        decodeEscapes (u ++ v) = u ++ decodeEscapes v := by
      intro u
      induction u with
      | nil => exact fun _ _ => rfl
      | cons b u ih =>
        intro hu v
        rw [List.cons_append, decode_other (fun h => hu (h ▸ List.mem_cons_self ..)),
          ih (fun h => hu (List.mem_cons_of_mem _ h)), List.cons_append]
    exact hbytes (str "$~lt;") (by decide) (restored s)
  rw [restored_tokenLt, hsplit, decode_copy, hrest]
  · rfl
  · exact fun h => absurd (hno _ h (ch 'l') (str "t;") rfl) (by decide)
  · exact fun h => absurd (hno _ h (ch 'a') (str "mp;") rfl) (by decide)

/-- A byte that comes back, before a text that is asked about. -/
theorem decode_restored_kept {b : Byte} {t : Bytes}
    (h : decodeEscapes (restored (b :: t)) = b :: decodeEscapes (restored t))
    (htoken : ¬ str "~$~" <+: b :: t) (htokenLt : ¬ str "~$<" <+: b :: t)
    (ht : (decodeEscapes (restored t)).count (ch '<') ≤ t.count (ch '<') ∧
      (decodeEscapes (restored t) = t ↔ ¬ str "~$~" <:+: t ∧ ¬ str "~$<" <:+: t)) :
    (decodeEscapes (restored (b :: t))).count (ch '<') ≤ (b :: t).count (ch '<') ∧
      (decodeEscapes (restored (b :: t)) = b :: t ↔
        ¬ str "~$~" <:+: b :: t ∧ ¬ str "~$<" <:+: b :: t) := by
  rw [h, List.infix_cons_iff, List.infix_cons_iff, or_iff_right htoken, or_iff_right htokenLt,
    List.cons.injEq, List.count_cons, List.count_cons]
  exact ⟨Nat.add_le_add_right ht.1 _, by simpa using ht.2⟩

/-- Text comes back unless it has a token in it, or one with a bracket for its end. -/
theorem decode_restored (hs : ∀ b ∈ s, isPlainByte b = true) :
    (decodeEscapes (restored s)).count (ch '<') ≤ s.count (ch '<') ∧
      (decodeEscapes (restored s) = s ↔ ¬ str "~$~" <:+: s ∧ ¬ str "~$<" <:+: s) := by
  induction hn : s.length using Nat.strong_induction_on generalizing s with
  | _ n ih =>
    cases s with
    | nil => decide +kernel
    | cons b t =>
      have ht : ∀ e ∈ t, isPlainByte e = true := fun e he => hs e (List.mem_cons_of_mem _ he)
      have htail := ih t.length (by simp [← hn]) ht rfl
      have hother : ∀ {e : Bytes}, b ≠ ch '~' → e.head? = some (ch '~') → ¬ e <+: b :: t := by
        rintro e hb he ⟨r, hr⟩
        obtain ⟨f, rfl⟩ := List.head?_eq_some_iff.mp he
        exact hb (List.cons.inj hr).1.symm
      cases start b t with
      | token u hu =>
        have hplain : ∀ e ∈ u, isPlainByte e = true := fun e he => hs e (by simp [hu, he])
        have hlen := congrArg List.length hu
        rw [List.length_append, hn, show (str "~$~").length = 3 by decide] at hlen
        have hcount := (ih u.length (by omega) hplain rfl).1
        have hwithin : str "~$~" <:+: str "~$~" ++ u := (List.prefix_append _ u).isInfix
        rw [hu, restored_token, decode_restored_amp hplain]
        refine ⟨?_, iff_of_false (fun h => ?_) fun h => h.1 hwithin⟩
        · rw [List.count_cons_of_ne (by decide), List.count_append]
          omega
        · exact absurd (List.cons.inj h).1 (by decide)
      | tokenLt u hu =>
        have hplain : ∀ e ∈ u, isPlainByte e = true := fun e he => hs e (by simp [hu, he])
        have hlen := congrArg List.length hu
        rw [List.length_append, hn, show (str "~$<").length = 3 by decide] at hlen
        have hcount := (ih u.length (by omega) hplain rfl).1
        have hwithin : str "~$<" <:+: str "~$<" ++ u := (List.prefix_append _ u).isInfix
        rw [hu, decode_restored_tokenLt]
        refine ⟨?_, iff_of_false (fun h => ?_) fun h => h.2 hwithin⟩
        · rw [List.count_append, List.count_append,
            show (str "&$~lt;").count (ch '<') = 0 by decide]
          omega
        · exact absurd (List.cons.inj h).1 (by decide)
      | lt hb =>
        subst hb
        refine decode_restored_kept ?_ (hother (by decide) rfl) (hother (by decide) rfl) htail
        rw [restored_lt, decode_lt]
      | amp hb =>
        subst hb
        refine decode_restored_kept ?_ (hother (by decide) rfl) (hother (by decide) rfl) htail
        rw [restored_amp, decode_amp]
      | copy hcopy hamp htoken htokenLt =>
        refine decode_restored_kept ?_ htoken htokenLt htail
        rw [hcopy, decode_other hamp]

/-! ### Lines -/

/-- Escaping makes no token. -/
theorem escapeLt_no_token (h : ¬ str "~$~" <:+: s) : ¬ str "~$~" <:+: escapeLt s := by
  have hhead : ∀ {t : Bytes} {x : Byte} {y : Bytes}, escapeLt t = x :: y → x ≠ ch '&' →
      ∃ u, t = x :: u ∧ y = escapeLt u := by
    intro t x y ht hx
    cases t with
    | nil => cases ht
    | cons b u =>
      rw [escapeLt, List.flatMap_cons] at ht
      by_cases hb : b = ch '<'
      · rw [if_pos hb] at ht
        exact absurd (List.cons.inj ht).1.symm hx
      · rw [if_neg hb] at ht
        obtain ⟨rfl, hy⟩ := List.cons.inj ht
        exact ⟨u, rfl, hy.symm⟩
  induction s with
  | nil => exact h
  | cons b t ih =>
    have htail := ih fun hwithin => h (hwithin.trans (List.suffix_cons b t).isInfix)
    by_cases hb : b = ch '<'
    · have hsplit : escapeLt (b :: t) =
          ch '&' :: ch 'l' :: ch 't' :: ch ';' :: escapeLt t := by
        rw [escapeLt, List.flatMap_cons, if_pos hb]
        rfl
      have hother : ∀ {d : Byte} (r : Bytes), d ≠ ch '~' → ¬ str "~$~" <+: d :: r := by
        rintro d r hd ⟨_, hr⟩
        exact hd (List.cons.inj hr).1.symm
      rw [hsplit, List.infix_cons_iff, List.infix_cons_iff, List.infix_cons_iff,
        List.infix_cons_iff, or_iff_right (hother _ (by decide)),
        or_iff_right (hother _ (by decide)), or_iff_right (hother _ (by decide)),
        or_iff_right (hother _ (by decide))]
      exact htail
    · have hsplit : escapeLt (b :: t) = b :: escapeLt t := by simp [escapeLt, hb]
      rw [hsplit, List.infix_cons_iff]
      rintro (⟨r, hr⟩ | hwithin)
      · obtain ⟨rfl, hdollar⟩ := List.cons.inj hr
        obtain ⟨u, rfl, htilde⟩ := hhead hdollar.symm (by decide)
        obtain ⟨v, rfl, _⟩ := hhead htilde.symm (by decide)
        exact h ⟨[], v, rfl⟩
      · exact htail hwithin

/-- The bytes of an escaped text. -/
def isEscapedByte (b : Byte) : Bool := isPlainByte b || (str ">;#").contains b

theorem escaped_of_plain {b : Byte} (h : isPlainByte b = true) : isEscapedByte b = true := by
  simp [isEscapedByte, h]

theorem not_mem_of_bytes {p : Byte → Bool} {l : Bytes} (hl : ∀ b ∈ l, p b = true) {x : Byte}
    (hx : p x = false) : x ∉ l := by
  intro hmem
  rw [hl x hmem] at hx
  cases hx

theorem cutRuns_bytes (hs : ∀ b ∈ s, isPlainByte b = true) :
    ∀ b ∈ cutRuns s, isPlainByte b = true := by
  rw [cutRuns_eq, gsubRuns]
  exact replaceAll_bytes hs fun _ _ _ => by decide

theorem escapeLt_bytes (hs : ∀ b ∈ s, isPlainByte b = true) :
    ∀ b ∈ escapeLt s, isEscapedByte b = true ∧ b ≠ ch '>' := by
  intro b hb
  obtain ⟨c, hc, hb⟩ := List.mem_flatMap.mp hb
  split_ifs at hb
  · have hlt : ∀ b ∈ str "&lt;", isEscapedByte b = true ∧ b ≠ ch '>' := by decide
    exact hlt b hb
  · obtain rfl := List.mem_singleton.mp hb
    exact ⟨escaped_of_plain (hs b hc), (plain_facts b (hs b hc)).2.2⟩

/-- A text between two tokens. -/
def tokenPattern : Pattern := pat "~$~(%S.-)~$~"

theorem tokenPattern_eq : tokenPattern = ⟨false, literalItems (str "~$~") ++
    (.startCapture :: .single (.cls (ch 'S')) .one :: .single .any .minus :: .endCapture ::
      literalItems (str "~$~"))⟩ := by
  decide

/-- What `embeddedHtml` makes of the text, up to the tokens in it. -/
theorem embeddedHtml_plainText (hs : ∀ b ∈ line, isPlainByte b = true) :
    embeddedHtml line = gsubStr tokenPattern (str "<%1>") (escapeLt (cutRuns line)) ∧
      ∀ b ∈ embeddedHtml line, isEscapedByte b = true := by
  have hcut := escapeLt_bytes (cutRuns_bytes hs)
  have hexcl : (pat "<!%-%-").Misses line :=
    .of_needs (x := ch '!') (by decide) (not_mem_of_bytes hs (by decide))
  have hgt : ch '>' ∉ line := not_mem_of_bytes hs (by decide)
  have hclose : (pat "%-%->").Misses line := .of_needs (x := ch '>') (by decide) hgt
  -- only the runs of brackets are replaced in the text with the tags
  have hruns : ch '>' ∉
      gsubStr (pat "(<<+)") (rep (str "&lt;") (str "%1").length) line := by
    have hne : ∀ b ∈ line, b ≠ ch '>' := fun b hb h => hgt (h ▸ hb)
    exact fun h => gsubStr_bytes rfl (by decide) hne _ h rfl
  have hcloses := Pattern.Misses.of_needs (p := pat "(>>+)") (x := ch '>') (by decide) hruns
  have hmark := Pattern.Misses.of_needs (p := pat "<nop>") (x := ch '>') (by decide) hruns
  have htag := Pattern.Misses.of_needs (p := pat "<(%S.-)>") (x := ch '>') (by decide) hruns
  have hgreater : (pat ">").Misses (escapeLt (cutRuns line)) :=
    .of_needs (x := ch '>') (by decide) fun hmem => (hcut _ hmem).2 rfl
  have hbytes : ∀ b ∈ gsubStr tokenPattern (str "<%1>") (escapeLt (cutRuns line)),
      isEscapedByte b = true :=
    gsubStr_bytes rfl (by decide) fun b hb => (hcut b hb).1
  have hnop := Pattern.Misses.of_needs (p := pat "nopTOKEN") (x := ch 'T') (by decide)
    (not_mem_of_bytes hbytes (by decide))
  have hcomment := Pattern.Misses.of_needs (p := pat "~$~!%-%-") (x := ch '!') (by decide)
    (not_mem_of_bytes hbytes (by decide))
  have hends := Pattern.Misses.of_needs (p := pat "%-%-~$~") (x := ch '-') (by decide)
    (not_mem_of_bytes hbytes (by decide))
  have hline : embeddedHtml line =
      gsubStr tokenPattern (str "<%1>") (escapeLt (cutRuns line)) := by
    rw [← escapeLt_cutRuns] at hgreater hnop hcomment hends ⊢
    simp only [gsubStr, tokenPattern] at hgreater hnop hcomment hends hcloses hmark htag
    simp only [embeddedHtml, gsubStr, tokenPattern]
    rw [replaceAll_misses hexcl, replaceAll_misses hclose, replaceAll_misses hcloses,
      replaceAll_misses hmark, replaceAll_misses htag, replaceAll_misses hgreater,
      replaceAll_misses hnop, replaceAll_misses hcomment, replaceAll_misses hends]
  rw [hline]
  exact ⟨rfl, hbytes⟩

theorem entities_bytes (hs : ∀ b ∈ s, isEscapedByte b = true) :
    ∀ b ∈ entities s, isEscapedByte b = true :=
  gsubStr_bytes rfl (by decide) (gsubStr_bytes rfl (by decide)
    (gsubStr_bytes rfl (by decide) (gsubStr_bytes rfl (by decide) hs)))

theorem named_head : headSingle (pat "&(%w%w-);").items = some (.lit (ch '&')) := by decide

theorem number_head : headSingle (pat "&#(%d+);").items = some (.lit (ch '&')) := by decide

theorem amp_head : headSingle (pat "&").items = some (.lit (ch '&')) := by decide

theorem token_head : headSingle (pat "~$~").items = some (.lit (ch '~')) := by decide

theorem entities_head {b : Byte} (hb : isLower b = true) (t : Bytes) :
    ∃ u, entities (b :: t) = b :: u := by
  have hamp : singleMatch b (.lit (ch '&')) = false :=
    beq_false_of_ne (ne_of_test hb (by decide)).symm
  have htilde : singleMatch b (.lit (ch '~')) = false :=
    beq_false_of_ne (ne_of_test hb (by decide)).symm
  simp only [entities, gsubStr_head rfl named_head hamp, gsubStr_head rfl number_head hamp,
    gsubStr_head rfl amp_head hamp, gsubStr_head rfl token_head htilde]
  exact ⟨_, rfl⟩

theorem entities_gt (hs : ch '>' ∈ s) : ch '>' ∈ entities s :=
  replaceAll_keeps (by decide) _ (replaceAll_keeps (by decide) _
    (replaceAll_keeps (by decide) _ (replaceAll_keeps (by decide) _ hs)))

theorem decodeEscapes_gt (hs : ch '>' ∈ s) : ch '>' ∈ decodeEscapes s := by
  induction hn : s.length using Nat.strong_induction_on generalizing s with
  | _ n ih =>
    have hskip : ∀ e u : Bytes, e ≠ [] → ch '>' ∉ e → s = e ++ u → ch '>' ∈ decodeEscapes u := by
      rintro e u hne he rfl
      have hlen := List.length_pos_iff.mpr hne
      rw [List.length_append] at hn
      exact ih u.length (by omega) ((List.mem_append.mp hs).resolve_left he) rfl
    by_cases hlt : str "&lt;" <+: s
    · obtain ⟨u, rfl⟩ := hlt
      rw [decode_lt]
      exact List.mem_cons_of_mem _ (hskip _ u (by decide) (by decide) rfl)
    by_cases hamp : str "&amp;" <+: s
    · obtain ⟨u, rfl⟩ := hamp
      rw [decode_amp]
      exact List.mem_cons_of_mem _ (hskip _ u (by decide) (by decide) rfl)
    cases s with
    | nil => cases hs
    | cons b t =>
      rw [decode_copy hlt hamp]
      rcases List.mem_cons.mp hs with rfl | ht
      · exact List.mem_cons_self ..
      · exact List.mem_cons_of_mem _ (ih t.length (by simp [← hn]) ht rfl)

/-- The text with escaped marks is settled. -/
theorem settled_plainText (hs : ∀ b ∈ line, isPlainByte b = true)
    (hfirst : ∃ b t, line = b :: t ∧ isLower b = true) (noAutoLink : Bool) :
    Settled noAutoLink (entities (embeddedHtml line)) := by
  obtain ⟨hhtml, hbytes⟩ := embeddedHtml_plainText hs
  obtain ⟨b, t, rfl, hb⟩ := hfirst
  have hhead : ∃ u, entities (embeddedHtml (b :: t)) = b :: u := by
    have hlt : b ≠ ch '<' := ne_of_test hb (by decide)
    have hescape : escapeLt (cutRuns (b :: t)) = b :: escapeLt (cutRuns t) := by
      rw [cutRuns_other hlt, escapeLt, List.flatMap_cons, if_neg hlt]
      rfl
    have htilde : singleMatch b (.lit (ch '~')) = false :=
      beq_false_of_ne (ne_of_test hb (by decide)).symm
    rw [hhtml, hescape, gsubStr_head rfl (c := .lit (ch '~')) (by decide) htilde]
    exact entities_head hb _
  have hall := entities_bytes hbytes
  generalize entities (embeddedHtml (b :: t)) = l at hhead hall
  obtain ⟨u, rfl⟩ := hhead
  have hno : ∀ x, isEscapedByte x = false → x ∉ b :: u := fun x hx => not_mem_of_bytes hall hx
  have hpad : ∀ e ∈ str " " ++ (b :: u) ++ str " ", isEscapedByte e = true := by
    intro e he
    have hblank : ∀ e ∈ str " ", isEscapedByte e = true := by decide
    rcases List.mem_append.mp he with he | he
    · exact (List.mem_append.mp he).elim (hblank e) (hall e)
    · exact hblank e he
  have hupper : ∀ e, isEscapedByte e = true → isUpper e = false := by
    refine forall_byte ?_
    decide +kernel
  refine ⟨⟨List.cons_ne_nil _ _, ?_, hno _ (by decide), hno _ (by decide)⟩, hno _ (by decide),
    hno _ (by decide), fun rule hrule => ?_, .inr ?_⟩
  · intro d v hd
    obtain ⟨rfl, _⟩ := List.cons.inj hd
    have hfacts := lower_facts b hb
    exact ⟨hfacts.2.1, hfacts.2.2.2.2.2⟩
  · exact emphasisRules_misses (not_mem_of_bytes hpad (by decide))
      (not_mem_of_bytes hpad (by decide)) (not_mem_of_bytes hpad (by decide)) rule hrule
  · exact plainPattern_misses (Apart.of_bytes fun b hb => hupper b (hpad b hb)).1

/-- The output is the escaped text without its entities. -/
theorem restores_iff (hs : ∀ b ∈ line, isPlainByte b = true)
    (hfirst : ∃ b t, line = b :: t ∧ isLower b = true) (env : FormatterEnv)
    (st : FormatterState) :
    Restores (formatWikiLine env line st).1 line ↔
      decodeEscapes (entities (embeddedHtml line)) = line := by
  have hcolon : ch ':' ∉ embeddedHtml line :=
    not_mem_of_bytes (embeddedHtml_plainText hs).2 (by decide)
  have hline : entities (embeddedUrls env.cls (embeddedHtml (blockQuote line))) =
      entities (embeddedHtml line) := by
    rw [blockQuote_plain (not_mem_of_bytes hs (by decide)), embeddedUrls_plain _ hcolon]
  rw [formatWikiLine_settled (settled_plainText hs hfirst st.insideNoAutoLink) hline]
  constructor
  · rintro ⟨text, htext, hdecode⟩
    rwa [List.append_cancel_left (List.append_cancel_right htext)]
  · exact fun h => ⟨_, rfl, h⟩

/-- Plain text comes back from its escaped form exactly when it has no run of three brackets, no
token, and no token with a bracket for its end. -/
theorem plainText_restored_iff (hs : ∀ b ∈ line, isPlainByte b = true)
    (hfirst : ∃ b t, line = b :: t ∧ isLower b = true) (env : FormatterEnv)
    (st : FormatterState) :
    Restores (formatWikiLine env line st).1 line ↔
      ¬ str "<<<" <:+: line ∧ ¬ str "~$~" <:+: line ∧ ¬ str "~$<" <:+: line := by
  rw [restores_iff hs hfirst]
  obtain ⟨hsame, hle, hlt⟩ := cutRuns_cases line
  by_cases htoken : tokenPattern.Misses (escapeLt (cutRuns line))
  · obtain ⟨hcount, hiff⟩ := decode_restored (cutRuns_bytes hs)
    have hline : entities (embeddedHtml line) = restored (cutRuns line) := by
      rw [(embeddedHtml_plainText hs).1, gsubStr, replaceAll_misses htoken,
        entities_escapeLt (cutRuns_bytes hs)]
      rfl
    rw [hline]
    by_cases hrun : str "<<<" <:+: line
    · refine iff_of_false (fun h => ?_) fun h => h.1 hrun
      have hfewer := hlt hrun
      rw [h] at hcount
      omega
    · rw [hsame hrun] at hiff ⊢
      rw [hiff]
      exact ⟨fun h => ⟨hrun, h⟩, fun h => h.2⟩
  · -- the closing bracket of a tag that was made of two tokens
    have hgt : ch '>' ∈ embeddedHtml line := by
      rw [(embeddedHtml_plainText hs).1]
      rw [tokenPattern_eq] at htoken ⊢
      obtain ⟨m, hm⟩ := exists_hit htoken
      have hadd : ch '>' ∈ addS m (str "<%1>") := by
        rw [show str "<%1>" = str "<%1" ++ str ">" by decide, addS_append m (by decide),
          List.mem_append]
        refine .inr ?_
        rw [addS_plain m (by decide)]
        decide
      exact List.mem_flatMap.mpr ⟨_, hm, hadd⟩
    refine iff_of_false (fun h => ?_) fun h => htoken ?_
    · have hmem := decodeEscapes_gt (entities_gt hgt)
      rw [h] at hmem
      exact not_mem_of_bytes hs (x := ch '>') (by decide) hmem
    · obtain ⟨hrun, hnot, _⟩ := h
      rw [hsame hrun, tokenPattern_eq]
      exact (Pattern.Misses.of_absent (escapeLt_no_token hnot)).extend _

theorem plainText_restored_ampersand :
    Restores (formatWikiLine (emptyEnv .wiki) (str "a<b & c~d") {}).1 (str "a<b & c~d") := by
  have hbytes : ∀ b ∈ str "a<b & c~d", isPlainByte b = true := by decide
  have hfirst : ∃ b t, str "a<b & c~d" = b :: t ∧ isLower b = true :=
    ⟨ch 'a', str "<b & c~d", by decide, by decide⟩
  exact (plainText_restored_iff hbytes hfirst (emptyEnv .wiki) {}).mpr
    ⟨by decide +kernel, by decide +kernel, by decide +kernel⟩

/-- Of three brackets one is lost. -/
theorem plainText_run_cut :
    (∀ b ∈ str "a<<<b", isPlainByte b = true) ∧
      (formatWikiLine (emptyEnv .wiki) (str "a<<<b") {}).1 = str " a&lt;&lt;b " ∧
      ¬ Restores (formatWikiLine (emptyEnv .wiki) (str "a<<<b") {}).1 (str "a<<<b") := by
  have hline : (formatWikiLine (emptyEnv .wiki) (str "a<<<b") {}).1 = str " a&lt;&lt;b " := by
    decide +kernel
  refine ⟨by decide, hline, ?_⟩
  rw [hline]
  rintro ⟨text, htext, hdecode⟩
  have hsplit : str " a&lt;&lt;b " = str " " ++ str "a&lt;&lt;b" ++ str " " := by decide
  rw [hsplit] at htext
  rw [← List.append_cancel_left (List.append_cancel_right htext)] at hdecode
  exact absurd hdecode (by decide)

end MoonWiki
