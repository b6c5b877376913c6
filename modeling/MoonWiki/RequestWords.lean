import MoonWiki.HttpServer
import MoonWiki.Lua.Parts

/-! The words of a text, and the request lines that `parseHttpRequest` finds among them. -/
namespace MoonWiki
open Lua

variable {b : Byte} {s u v w : Bytes} {ws : List Bytes}

/-! ### Words -/

def words (s : Bytes) : List Bytes := (s.splitOnP isSpace).filter (· ≠ [])

def isVersion (w : Bytes) : Bool :=
  w.take 5 == str "HTTP/" &&
    match w.drop 5 with
    | [major, dot, minor] => isDigit major && dot == ch '.' && isDigit minor
    | _ => false

/-- The upper-case letters at the end of a word. -/
def methodOf (w : Bytes) : Bytes := w.rtakeWhile isUpper

/-- Three words in a row that look like a request line. -/
def lineTriples : List Bytes → List (List Bytes)
  | w₁ :: w₂ :: w₃ :: ws =>
    if methodOf w₁ ≠ [] ∧ isVersion w₃ = true then [methodOf w₁, w₂, w₃] :: lineTriples ws
    else lineTriples (w₂ :: w₃ :: ws)
  | _ => []

theorem words_nil : words [] = [] := rfl

theorem words_blank (hb : isSpace b = true) (s : Bytes) : words (b :: s) = words s := by
  have hsplit : ([] ++ b :: s).splitOnP isSpace = [] :: s.splitOnP isSpace :=
    List.splitOnP_append_cons_of_forall_mem (by simp) b hb s
  rw [List.nil_append] at hsplit
  rw [words, hsplit]
  rfl

theorem words_word (hne : w ≠ []) (hw : ∀ b ∈ w, isSpace b = false) (hb : isSpace b = true)
    (s : Bytes) : words (w ++ b :: s) = w :: words s := by
  rw [words, List.splitOnP_append_cons_of_forall_mem hw b hb s, List.filter_cons_of_pos (by simpa)]
  rfl

theorem words_blanks (hu : ∀ b ∈ u, isSpace b = true) (s : Bytes) : words (u ++ s) = words s := by
  induction u with
  | nil => rfl
  | cons b u ih =>
    rw [List.cons_append, words_blank (hu b (List.mem_cons_self ..)),
      ih fun d hd => hu d (List.mem_cons_of_mem _ hd)]

theorem lineTriples_skip (h : methodOf w = []) (ws : List Bytes) :
    lineTriples (w :: ws) = lineTriples ws := by
  rcases ws with _ | ⟨w₂, _ | ⟨w₃, ws⟩⟩
  · rfl
  · rfl
  · rw [lineTriples, if_neg (by simp [h])]

theorem lineTriples_other {w₂ w₃ : Bytes} (h : isVersion w₃ = false) (ws : List Bytes) :
    lineTriples (w :: w₂ :: w₃ :: ws) = lineTriples (w₂ :: w₃ :: ws) := by
  rw [lineTriples, if_neg (by simp [h])]

theorem isVersion_iff : isVersion w = true ↔ ∃ major minor,
    w = str "HTTP/" ++ [major, ch '.', minor] ∧ isDigit major = true ∧ isDigit minor = true := by
  rw [isVersion, Bool.and_eq_true, beq_iff_eq]
  constructor
  · rintro ⟨hname, hnumber⟩
    split at hnumber
    · rename_i major dot minor hdrop
      simp only [Bool.and_eq_true, beq_iff_eq] at hnumber
      obtain ⟨⟨hmajor, rfl⟩, hminor⟩ := hnumber
      exact ⟨major, minor, by rw [← hname, ← hdrop, List.take_append_drop], hmajor, hminor⟩
    · cases hnumber
  · rintro ⟨major, minor, rfl, hmajor, hminor⟩
    have htext : str "HTTP/" = [ch 'H', ch 'T', ch 'T', ch 'P', ch '/'] := by decide
    simp [htext, hmajor, hminor]

/-! ### The pattern -/

/-- `c+` before items that no byte of its kind begins a match of. -/
theorem doMatch_plus_run {c : Single} {is : List Item} {caps : List Capture} (hne : u ≠ [])
    (hu : ∀ b ∈ u, singleMatch b c = true) (hv : ∀ b t, v = b :: t → singleMatch b c = false)
    (hfail : ∀ b t, singleMatch b c = true → doMatch is caps (b :: t) = none) :
    doMatch (.single c .plus :: is) caps (u ++ v) = doMatch is caps v := by
  cases hr : doMatch is caps v with
  | some r => exact doMatch_plus hne hu hv hr
  | none =>
    cases hm : doMatch (.single c .plus :: is) caps (u ++ v) with
    | none => rfl
    | some r =>
      obtain ⟨u', v', hsplit, _, hu', hv'⟩ := doMatch_plus_sound hm
      have hstop : ∀ b t, v' = b :: t → singleMatch b c = false := by
        rintro b t rfl
        by_contra hb
        rw [hfail b t (by simpa using hb)] at hv'
        cases hv'
      have htake : ∀ {u v : Bytes}, (∀ b ∈ u, singleMatch b c = true) →
          (∀ b t, v = b :: t → singleMatch b c = false) →
            (u ++ v).dropWhile (singleMatch · c) = v := by
        intro u v hu hv
        rw [List.dropWhile_append_of_pos hu]
        cases v with
        | nil => rfl
        | cons b t => exact List.dropWhile_cons_of_neg (by simp [hv b t rfl])
      have hsame := htake hu hv
      rw [hsplit, htake hu' hstop] at hsame
      rw [hsame, hr] at hv'
      cases hv'

def versionItems : List Item :=
  .startCapture :: (literalItems (str "HTTP/") ++ [.single (.cls (ch 'd')) .one,
    .single (.cls (ch '.')) .one, .single (.cls (ch 'd')) .one, .endCapture,
    .single (.cls (ch 's')) .plus])

def uriItems : List Item :=
  .startCapture :: .single (.set true [.cls (ch 's')]) .plus :: .endCapture ::
    .single (.cls (ch 's')) .plus :: versionItems

def requestItems : List Item :=
  .startCapture :: .single (.cls (ch 'u')) .plus :: .endCapture ::
    .single (.cls (ch 's')) .plus :: uriItems

theorem request_pattern : pat "(%u+)%s+([^%s]+)%s+(HTTP/%d%.%d)%s+" = ⟨false, requestItems⟩ := by
  decide

theorem blank_match (b : Byte) : singleMatch b (.cls (ch 's')) = isSpace b := rfl

theorem digit_match (b : Byte) : singleMatch b (.cls (ch 'd')) = isDigit b := rfl

theorem upper_match (b : Byte) : singleMatch b (.cls (ch 'u')) = isUpper b := rfl

theorem dot_match (b : Byte) : singleMatch b (.cls (ch '.')) = true ↔ b = ch '.' := by
  revert b
  refine forall_byte ?_
  decide +kernel

theorem solid_match (b : Byte) : singleMatch b (.set true [.cls (ch 's')]) = !isSpace b := by
  revert b
  refine forall_byte ?_
  decide +kernel

/-- A word, then blanks. -/
structure WordThen (w blanks v : Bytes) : Prop where
  ne : w ≠ []
  solid : ∀ b ∈ w, isSpace b = false
  blanks_ne : blanks ≠ []
  blanks : ∀ b ∈ blanks, isSpace b = true
  ends : ∀ b t, v = b :: t → isSpace b = false

theorem WordThen.takeWhile {blanks : Bytes} (h : WordThen w blanks v) :
    (w ++ (blanks ++ v)).takeWhile (!isSpace ·) = w := by
  obtain ⟨b, blanks, rfl⟩ := List.exists_cons_of_ne_nil h.blanks_ne
  have hb := h.blanks b (List.mem_cons_self ..)
  rw [List.takeWhile_append_of_pos (by simpa using h.solid), List.cons_append,
    List.takeWhile_cons_of_neg (by simp [hb]), List.append_nil]

theorem doMatch_version {blanks : Bytes} (h : WordThen w blanks v) (caps : List Capture) :
    doMatch versionItems caps (w ++ (blanks ++ v)) =
      if isVersion w = true then some (v, caps ++ [.done w]) else none := by
  have hblanks : ∀ caps, doMatch [.single (.cls (ch 's')) .plus] caps (blanks ++ v) =
      some (v, caps) := fun caps => doMatch_plus h.blanks_ne h.blanks h.ends rfl
  split_ifs with hversion
  · obtain ⟨major, minor, rfl, hmajor, hminor⟩ := isVersion_iff.mp hversion
    have hend : doMatch [.endCapture, .single (.cls (ch 's')) .plus]
        (caps ++ [.unfinished ((str "HTTP/" ++ [major, ch '.', minor]) ++ (blanks ++ v))])
          (blanks ++ v) = doMatch [.single (.cls (ch 's')) .plus]
        (caps ++ [.done (str "HTTP/" ++ [major, ch '.', minor])]) (blanks ++ v) :=
      doMatch_endCapture _ _
    rw [versionItems, doMatch, List.append_assoc, doMatch_literal]
    refine (doMatch_one ((digit_match _).trans hmajor)).trans ((doMatch_one (by decide)).trans
      ((doMatch_one ((digit_match _).trans hminor)).trans ?_))
    rw [← List.append_assoc]
    exact hend.trans (hblanks _)
  · cases hm : doMatch versionItems caps (w ++ (blanks ++ v)) with
    | none => rfl
    | some r =>
      refine absurd (isVersion_iff.mpr ?_) hversion
      rw [versionItems, doMatch] at hm
      obtain ⟨x, hx, hnumber⟩ := doMatch_literal_sound hm
      obtain ⟨major, x, rfl, hmajor, htail⟩ := doMatch_one_sound hnumber
      obtain ⟨dot, x, rfl, hdot, htail'⟩ := doMatch_one_sound htail
      obtain ⟨minor, x, rfl, hminor, hend⟩ := doMatch_one_sound htail'
      obtain rfl := (dot_match dot).mp hdot
      rw [doMatch] at hend
      obtain ⟨u, y, rfl, hne, hu, _⟩ := doMatch_plus_sound hend
      obtain ⟨d, u, rfl⟩ := List.exists_cons_of_ne_nil hne
      refine ⟨major, minor, ?_, hmajor, hminor⟩
      have hsolid : ∀ b ∈ str "HTTP/" ++ [major, ch '.', minor], (!isSpace b) = true := by
        have htext : ∀ b ∈ str "HTTP/" ++ [ch '.'], (!isSpace b) = true := by decide
        intro b hb
        rcases List.mem_append.mp hb with hb | hb
        · exact htext b (List.mem_append_left _ hb)
        · rcases List.mem_cons.mp hb with rfl | hb
          · simp [isSpace_of_isDigit hmajor]
          · rcases List.mem_cons.mp hb with rfl | hb
            · decide
            · rw [List.mem_singleton.mp hb]
              simp [isSpace_of_isDigit hminor]
      have hd : ¬ (!isSpace d) = true := by simp [← blank_match, hu d (List.mem_cons_self ..)]
      have hword := h.takeWhile
      rw [hx] at hword
      have hsplit : str "HTTP/" ++ major :: ch '.' :: minor :: (d :: u ++ y) =
          (str "HTTP/" ++ [major, ch '.', minor]) ++ d :: (u ++ y) := by simp
      rw [hsplit, List.takeWhile_append_of_pos hsolid,
        List.takeWhile_cons_of_neg (p := fun a => !isSpace a) hd, List.append_nil] at hword
      exact hword.symm

theorem versionItems_head {caps : List Capture} (hv : ∀ t, v ≠ ch 'H' :: t) :
    doMatch versionItems caps v = none := by
  have htext : literalItems (str "HTTP/") = literalItems (ch 'H' :: str "TTP/") := by decide
  rw [versionItems, doMatch, htext]
  refine doMatch_literal_none ?_
  rintro ⟨t, ht⟩
  exact hv _ ht.symm

/-- Blanks before a part of the pattern that begins with none. -/
theorem doMatch_blanks {is : List Item} {caps : List Capture} {blanks : Bytes}
    (hne : blanks ≠ []) (hblanks : ∀ b ∈ blanks, isSpace b = true)
    (hv : ∀ b t, v = b :: t → isSpace b = false)
    (hfail : ∀ b t, isSpace b = true → doMatch is caps (b :: t) = none) :
    doMatch (.single (.cls (ch 's')) .plus :: is) caps (blanks ++ v) = doMatch is caps v :=
  doMatch_plus_run hne hblanks hv hfail

theorem versionItems_blank {caps : List Capture} (hb : isSpace b = true) (t : Bytes) :
    doMatch versionItems caps (b :: t) = none := by
  refine versionItems_head fun t' ht => ?_
  obtain ⟨rfl, _⟩ := List.cons.inj ht
  exact absurd hb (by decide)

theorem uriItems_blank {caps : List Capture} (hb : isSpace b = true) (t : Bytes) :
    doMatch uriItems caps (b :: t) = none := by
  rw [uriItems, doMatch, doMatch, expand, if_neg (by simp [solid_match, hb])]

/-- The URI is a whole word. -/
theorem doMatch_uri {blanks : Bytes} (h : WordThen w blanks v) (caps : List Capture) :
    doMatch uriItems caps (w ++ (blanks ++ v)) = doMatch versionItems (caps ++ [.done w]) v := by
  have hstop : ∀ b t, blanks ++ v = b :: t →
      singleMatch b (.set true [.cls (ch 's')]) = false := by
    obtain ⟨d, blanks, rfl⟩ := List.exists_cons_of_ne_nil h.blanks_ne
    rintro b t hb
    obtain ⟨rfl, _⟩ := List.cons.inj hb
    rw [solid_match, h.blanks d (List.mem_cons_self ..)]
    rfl
  have hfail : ∀ (b : Byte) (t : Bytes), singleMatch b (.set true [.cls (ch 's')]) = true →
      doMatch (.endCapture :: .single (.cls (ch 's')) .plus :: versionItems)
        (caps ++ [.unfinished (w ++ (blanks ++ v))]) (b :: t) = none := by
    intro b t hb
    rw [solid_match] at hb
    rw [doMatch, doMatch, expand, if_neg (by simpa [blank_match] using hb)]
  rw [uriItems, doMatch, doMatch_plus_run h.ne (fun b hb => by simp [solid_match, h.solid b hb])
    hstop hfail, doMatch_endCapture, doMatch_blanks h.blanks_ne h.blanks h.ends
      fun b t hb => versionItems_blank hb t]

theorem upper_not_space (b : Byte) (h : isUpper b = true) : isSpace b = false := by
  revert h
  revert b
  refine forall_byte ?_
  decide +kernel

/-- The method is a run of upper-case letters before blanks. -/
theorem doMatch_method {blanks : Bytes} (hne : u ≠ []) (hu : ∀ b ∈ u, isUpper b = true)
    (hblanks_ne : blanks ≠ []) (hblanks : ∀ b ∈ blanks, isSpace b = true)
    (hv : ∀ b t, v = b :: t → isSpace b = false) :
    doMatch requestItems [] (u ++ (blanks ++ v)) = doMatch uriItems [.done u] v := by
  have hstop : ∀ b t, blanks ++ v = b :: t → singleMatch b (.cls (ch 'u')) = false := by
    obtain ⟨d, blanks, rfl⟩ := List.exists_cons_of_ne_nil hblanks_ne
    rintro b t hb
    obtain ⟨rfl, _⟩ := List.cons.inj hb
    have hd := hblanks d (List.mem_cons_self ..)
    rw [upper_match, Bool.eq_false_iff]
    intro hupper
    simp [upper_not_space d hupper] at hd
  have hfail : ∀ (b : Byte) (t : Bytes), singleMatch b (.cls (ch 'u')) = true →
      doMatch (.endCapture :: .single (.cls (ch 's')) .plus :: uriItems)
        ([] ++ [.unfinished (u ++ (blanks ++ v))]) (b :: t) = none := by
    intro b t hb
    have hspace : ¬ singleMatch b (.cls (ch 's')) = true := by
      simp [blank_match, upper_not_space b hb]
    rw [doMatch, doMatch, expand, if_neg hspace]
  have hend : doMatch (.endCapture :: .single (.cls (ch 's')) .plus :: uriItems)
      ([] ++ [.unfinished (u ++ (blanks ++ v))]) (blanks ++ v) =
        doMatch (.single (.cls (ch 's')) .plus :: uriItems) [.done u] (blanks ++ v) :=
    doMatch_endCapture u (blanks ++ v)
  rw [requestItems, doMatch,
    doMatch_plus_run hne (fun b hb => (upper_match b).trans (hu b hb)) hstop hfail]
  exact hend.trans (doMatch_blanks hblanks_ne hblanks hv fun b t hb => uriItems_blank hb t)

theorem requestItems_fails {d : Byte} (hu : ∀ b ∈ u, isUpper b = true) (hd : isUpper d = false)
    (hspace : isSpace d = false) (t : Bytes) : matchHere requestItems (u ++ d :: t) = none := by
  have hstop : ∀ b t', d :: t = b :: t' → singleMatch b (.cls (ch 'u')) = false := by
    intro b t' hb
    obtain ⟨rfl, _⟩ := List.cons.inj hb
    exact hd
  by_cases hne : u = []
  · subst hne
    exact matchHere_head (by decide) hstop
  · refine matchHere_eq_none ?_
    have hfail : ∀ (b : Byte) (t' : Bytes), isSpace b = false →
        doMatch (.endCapture :: .single (.cls (ch 's')) .plus :: uriItems)
          ([] ++ [.unfinished (u ++ d :: t)]) (b :: t') = none := by
      intro b t' hb
      rw [doMatch, doMatch, expand, if_neg (by simp [blank_match, hb])]
    rw [requestItems, doMatch]
    exact (doMatch_plus_run hne (fun b hb => (upper_match b).trans (hu b hb)) hstop
      fun b t' hb => hfail b t' (upper_not_space b hb)).trans (hfail d t hspace)

/-! ### All request lines of a text -/

theorem gfind_skip {is : List Item} {p r : Bytes}
    (h : ∀ q, q <:+ p → q ≠ [] → matchHere is (q ++ r) = none) :
    gfind ⟨false, is⟩ (p ++ r) = gfind ⟨false, is⟩ r := by
  induction p with
  | nil => rfl
  | cons b p ih =>
    have hb := h (b :: p) List.suffix_rfl (List.cons_ne_nil b p)
    rw [List.cons_append] at hb ⊢
    rw [gfind_miss hb]
    exact ih fun q hq => h q (hq.trans (List.suffix_cons b p))

theorem methodOf_split (w : Bytes) : ∃ p, w = p ++ methodOf w ∧
    (∀ b ∈ methodOf w, isUpper b = true) ∧ ∀ q d, p = q ++ [d] → isUpper d = false := by
  refine ⟨w.rdropWhile isUpper, ?_, ?_, ?_⟩
  · rw [methodOf, List.rdropWhile, List.rtakeWhile, ← List.reverse_append,
      List.takeWhile_append_dropWhile, List.reverse_reverse]
  · intro b hb
    exact List.mem_rtakeWhile_imp hb
  · intro q d hq
    have hne : w.rdropWhile isUpper ≠ [] := by simp [hq]
    have hlast := List.rdropWhile_last_not isUpper w hne
    simpa [hq] using hlast

/-- No method ends before the end of a word. -/
theorem request_skip {p r : Bytes} (hp : ∀ b ∈ p, isSpace b = false)
    (hlast : ∀ q d, p = q ++ [d] → isUpper d = false) :
    gfind ⟨false, requestItems⟩ (p ++ r) = gfind ⟨false, requestItems⟩ r := by
  refine gfind_skip fun q hq hne => ?_
  obtain ⟨u, v, rfl, hu, hv⟩ := exists_run isUpper q
  cases v with
  | nil =>
    obtain ⟨x, hx⟩ := hq
    obtain ⟨u', d, rfl⟩ := List.eq_nil_or_concat u |>.resolve_left (by simpa using hne)
    have hd := hlast (x ++ u') d (by simp [← hx])
    rw [hu d (by simp)] at hd
    cases hd
  | cons d v =>
    rw [List.append_assoc]
    exact requestItems_fails hu (hv d v rfl) (hp d (hq.subset (by simp))) _

theorem exists_wordThen {b : Byte} (hb : isSpace b = false) (h : EndsIn isSpace (b :: s)) :
    ∃ w blanks v, b :: s = w ++ (blanks ++ v) ∧ WordThen w blanks v ∧
      (v = [] ∨ EndsIn isSpace v) ∧ words (b :: s) = w :: words v := by
  obtain ⟨w, r, hs, hw, hr⟩ := exists_run (!isSpace ·) (b :: s)
  have hsolid : ∀ b ∈ w, isSpace b = false := fun d hd => by simpa using hw d hd
  have hne : w ≠ [] := by
    rintro rfl
    simpa [hb] using hr b s hs.symm
  cases r with
  | nil =>
    obtain ⟨x, d, hlast, hd⟩ := h
    rw [List.append_nil] at hs
    rw [hsolid d (by simp [← hs, hlast])] at hd
    cases hd
  | cons x r =>
    have hx : isSpace x = true := by simpa using hr x r rfl
    obtain ⟨blanks, v, hsplit, hblanks, hv⟩ := exists_run isSpace (x :: r)
    have hblanks_ne : blanks ≠ [] := by
      rintro rfl
      rw [hv x r hsplit.symm] at hx
      cases hx
    refine ⟨w, blanks, v, by rw [hs, hsplit], ⟨hne, hsolid, hblanks_ne, hblanks, hv⟩, ?_, ?_⟩
    · by_cases hvn : v = []
      · exact .inl hvn
      · refine .inr (h.of_suffix ?_ hvn)
        rw [hs, hsplit, ← List.append_assoc]
        exact List.suffix_append _ _
    · rw [hs, words_word hne hsolid hx, ← words_blank hx, hsplit, words_blanks hblanks]

theorem methodOf_suffix {m : Bytes} (hm : m <:+ methodOf w) : ∀ b ∈ m, isUpper b = true :=
  fun _ hb => List.mem_rtakeWhile_imp (hm.subset hb)

/-- Where no method is followed by a URI and a version, the word is passed over. -/
theorem request_pass {r : Bytes} (hw : ∀ b ∈ w, isSpace b = false)
    (h : ∀ m, m <:+ methodOf w → m ≠ [] → matchHere requestItems (m ++ r) = none) :
    gfind ⟨false, requestItems⟩ (w ++ r) = gfind ⟨false, requestItems⟩ r := by
  obtain ⟨p, hsplit, _, hlast⟩ := methodOf_split w
  have hp : ∀ b ∈ p, isSpace b = false := fun b hb =>
    hw b (hsplit ▸ List.mem_append_left _ hb)
  calc gfind ⟨false, requestItems⟩ (w ++ r)
      = gfind ⟨false, requestItems⟩ (p ++ (methodOf w ++ r)) := by
        rw [← List.append_assoc, ← hsplit]
    _ = gfind ⟨false, requestItems⟩ (methodOf w ++ r) := request_skip hp hlast
    _ = gfind ⟨false, requestItems⟩ r := gfind_skip h

/-- The scan finds the three words at the next word, or goes on behind it. -/
theorem gfind_request_word {blanks : Bytes} (h : WordThen w blanks v)
    (hv : v = [] ∨ EndsIn isSpace v) :
    gfind ⟨false, requestItems⟩ (w ++ (blanks ++ v)) = gfind ⟨false, requestItems⟩ (blanks ++ v) ∧
        lineTriples (w :: words v) = lineTriples (words v) ∨
      ∃ w₂ w₃ r, words v = w₂ :: w₃ :: words r ∧ (r = [] ∨ EndsIn isSpace r) ∧
        r.length ≤ v.length ∧ (methodOf w ≠ [] ∧ isVersion w₃ = true) ∧
          gfind ⟨false, requestItems⟩ (w ++ (blanks ++ v)) =
            [methodOf w, w₂, w₃] :: gfind ⟨false, requestItems⟩ r := by
  have hmethod : ∀ m, m <:+ methodOf w → m ≠ [] → doMatch requestItems [] (m ++ (blanks ++ v)) =
      doMatch uriItems [.done m] v := fun m hm hne =>
    doMatch_method hne (methodOf_suffix hm) h.blanks_ne h.blanks h.ends
  have hpass : (∀ m, m ≠ [] → doMatch uriItems [.done m] v = none) →
      gfind ⟨false, requestItems⟩ (w ++ (blanks ++ v)) =
        gfind ⟨false, requestItems⟩ (blanks ++ v) := fun hnone =>
    request_pass h.solid fun m hm hne => matchHere_eq_none ((hmethod m hm hne).trans (hnone m hne))
  rcases hv with rfl | hv
  · exact .inl ⟨hpass fun m _ => rfl, rfl⟩
  · obtain ⟨b, v, rfl⟩ := List.exists_cons_of_ne_nil hv.ne_nil
    obtain ⟨w₂, blanks₂, v₂, hsplit, h₂, hv₂, hwords⟩ := exists_wordThen (h.ends b v rfl) hv
    have huri : ∀ m, doMatch uriItems [.done m] (b :: v) =
        doMatch versionItems [.done m, .done w₂] v₂ := by
      intro m
      rw [hsplit, doMatch_uri h₂]
      rfl
    rcases hv₂ with rfl | hv₂
    · refine .inl ⟨hpass fun m _ => (huri m).trans rfl, ?_⟩
      rw [hwords]
      rfl
    · obtain ⟨c, v₂, rfl⟩ := List.exists_cons_of_ne_nil hv₂.ne_nil
      obtain ⟨w₃, blanks₃, v₃, hsplit₃, h₃, hv₃, hwords₃⟩ :=
        exists_wordThen (h₂.ends c v₂ rfl) hv₂
      have hversion : ∀ m, doMatch uriItems [.done m] (b :: v) =
          if isVersion w₃ = true then some (v₃, [.done m, .done w₂, .done w₃]) else none := by
        intro m
        rw [huri, hsplit₃, doMatch_version h₃]
        rfl
      by_cases hlast : isVersion w₃ = true
      · by_cases hm : methodOf w = []
        · refine .inl ⟨request_pass h.solid fun m hsuffix hne => ?_, lineTriples_skip hm _⟩
          rw [hm, List.suffix_nil] at hsuffix
          exact absurd hsuffix hne
        · refine .inr ⟨w₂, w₃, v₃, by rw [hwords, hwords₃], hv₃, ?_, ⟨hm, hlast⟩, ?_⟩
          · have hlen := congrArg List.length hsplit
            have hlen₃ := congrArg List.length hsplit₃
            simp only [List.length_append] at hlen hlen₃
            omega
          · obtain ⟨p, hsplitW, _, hlastP⟩ := methodOf_split w
            have hp : ∀ b ∈ p, isSpace b = false := fun b hb =>
              h.solid b (hsplitW ▸ List.mem_append_left _ hb)
            have hd := (hmethod (methodOf w) List.suffix_rfl hm).trans
              ((hversion (methodOf w)).trans (if_pos hlast))
            have htext : methodOf w ++ (blanks ++ b :: v) = (methodOf w ++
                (blanks ++ (w₂ ++ (blanks₂ ++ (w₃ ++ blanks₃))))) ++ v₃ := by
              rw [hsplit, hsplit₃]
              simp only [List.append_assoc]
            rw [htext] at hd
            have hne : methodOf w ++ (blanks ++ (w₂ ++ (blanks₂ ++ (w₃ ++ blanks₃)))) ≠ [] :=
              List.append_ne_nil_of_left_ne_nil hm _
            calc gfind ⟨false, requestItems⟩ (w ++ (blanks ++ b :: v))
                = gfind ⟨false, requestItems⟩ (p ++ (methodOf w ++ (blanks ++ b :: v))) := by
                  rw [← List.append_assoc p, ← hsplitW]
              _ = gfind ⟨false, requestItems⟩ (methodOf w ++ (blanks ++ b :: v)) :=
                request_skip hp hlastP
              _ = [methodOf w, w₂, w₃] :: gfind ⟨false, requestItems⟩ v₃ := by
                rw [htext]
                exact gfind_hit (matchHere_of_doMatch hd) hne
      · refine .inl ⟨hpass fun m _ => (hversion m).trans (if_neg hlast), ?_⟩
        rw [hwords, hwords₃, lineTriples_other (by simpa using hlast)]

theorem gfind_request (h : s = [] ∨ EndsIn isSpace s) :
    gfind ⟨false, requestItems⟩ s = lineTriples (words s) := by
  induction hn : s.length using Nat.strong_induction_on generalizing s with
  | _ n ih =>
    rcases h with rfl | h
    · rw [gfind_nil (matchHere_nil (by decide))]
      rfl
    · obtain ⟨b, s, rfl⟩ := List.exists_cons_of_ne_nil h.ne_nil
      rw [List.length_cons] at hn
      by_cases hb : isSpace b = true
      · have hhead : matchHere requestItems (b :: s) = none := by
          refine matchHere_head (c := .cls (ch 'u')) (by decide) fun d t hd => ?_
          obtain ⟨rfl, _⟩ := List.cons.inj hd
          rw [upper_match, Bool.eq_false_iff]
          intro hupper
          simp [upper_not_space b hupper] at hb
        have htail : s = [] ∨ EndsIn isSpace s := by
          by_cases hs : s = []
          · exact .inl hs
          · exact .inr (h.of_suffix (List.suffix_cons b s) hs)
        rw [gfind_miss hhead, words_blank hb]
        exact ih s.length (by omega) htail rfl
      · obtain ⟨w, blanks, v, hsplit, hw, hv, hwords⟩ := exists_wordThen (by simpa using hb) h
        have hlen := congrArg List.length hsplit
        have hpos := List.length_pos_of_ne_nil hw.ne
        simp only [List.length_append, List.length_cons] at hlen
        rw [hsplit] at h
        rw [hwords, hsplit]
        rcases gfind_request_word hw hv with ⟨hgfind, htriples⟩ |
          ⟨w₂, w₃, r, hwords', hr, hle, htriple, hgfind⟩
        · have hne : blanks ++ v ≠ [] := List.append_ne_nil_of_left_ne_nil hw.blanks_ne v
          have hrest := ih (blanks ++ v).length (by rw [List.length_append]; omega)
            (.inr (h.of_suffix (List.suffix_append _ _) hne)) rfl
          rw [hgfind, hrest, words_blanks hw.blanks, htriples]
        · rw [hgfind, hwords', lineTriples, if_pos htriple, ih r.length (by omega) hr rfl]

end MoonWiki
