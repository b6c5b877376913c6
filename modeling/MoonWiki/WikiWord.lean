import MoonWiki.Lua.Matching
import MoonWiki.Store
import MoonWiki.WikiFormatter

/-! WikiWords: the grammar of titles, and the files that titles name. -/
namespace MoonWiki
open Lua

/-- Upper-case letters, lower-case letters, upper-case letters, then letters and digits. -/
def IsWikiWord (t : Bytes) : Prop :=
  ∃ u l v w : Bytes, t = u ++ (l ++ (v ++ w)) ∧ u ≠ [] ∧ l ≠ [] ∧ v ≠ [] ∧
    (∀ b ∈ u, isUpper b) ∧ (∀ b ∈ l, isLower b) ∧ (∀ b ∈ v, isUpper b) ∧ ∀ b ∈ w, isAlnum b

def wordItems : List Item :=
  [.single (.cls (ch 'u')) .plus, .single (.cls (ch 'l')) .plus, .single (.cls (ch 'u')) .plus,
    .single (.set false [.cls (ch 'a'), .cls (ch 'd')]) .star, .endCapture]

theorem wikiWord_pattern : wikiWordPattern = ⟨false, .startCapture :: wordItems⟩ := by
  decide

theorem singleMatch_upper (b : Byte) : singleMatch b (.cls (ch 'u')) = isUpper b := rfl

theorem singleMatch_lower (b : Byte) : singleMatch b (.cls (ch 'l')) = isLower b := rfl

theorem singleMatch_alnum (b : Byte) :
    singleMatch b (.set false [.cls (ch 'a'), .cls (ch 'd')]) = isAlnum b := by
  simp only [singleMatch, matchBracketClass, List.any_cons, List.any_nil, Bool.or_false,
    Bool.bne_false]
  rfl

/-- What the pattern captures is a WikiWord. -/
theorem doMatch_wordItems_sound {caps : List Capture} {init s : Bytes} {r : Bytes × List Capture}
    (h : doMatch wordItems (caps ++ [.unfinished init]) s = some r) :
    ∃ t, s = t ++ r.1 ∧ IsWikiWord t ∧
      r.2 = caps ++ [.done (init.take (init.length - r.1.length))] := by
  obtain ⟨u, s, rfl, hu, hu', h⟩ := doMatch_plus_sound h
  obtain ⟨l, s, rfl, hl, hl', h⟩ := doMatch_plus_sound h
  obtain ⟨v, s, rfl, hv, hv', h⟩ := doMatch_plus_sound h
  obtain ⟨w, s, rfl, hw, h⟩ := doMatch_star_sound h
  rw [doMatch, endCapture_append] at h
  obtain rfl := Option.some.inj h
  refine ⟨u ++ (l ++ (v ++ w)), by simp, ⟨u, l, v, w, rfl, hu, hl, hv, ?_, ?_, ?_, ?_⟩, rfl⟩
  · simpa only [singleMatch_upper] using hu'
  · simpa only [singleMatch_lower] using hl'
  · simpa only [singleMatch_upper] using hv'
  · simpa only [singleMatch_alnum] using hw

/-- The second run of upper-case letters can be taken to be the longest. -/
theorem IsWikiWord.longest {t : Bytes} (ht : IsWikiWord t) :
    ∃ u l v w : Bytes, t = u ++ (l ++ (v ++ w)) ∧ u ≠ [] ∧ l ≠ [] ∧ v ≠ [] ∧
      (∀ b ∈ u, isUpper b) ∧ (∀ b ∈ l, isLower b) ∧ (∀ b ∈ v, isUpper b) ∧
      (∀ b ∈ w, isAlnum b) ∧ ∀ b s, w = b :: s → isUpper b = false := by
  obtain ⟨u, l, v, w, rfl, hu, hl, hv, hu', hl', hv', hw⟩ := ht
  refine ⟨u, l, v ++ w.takeWhile isUpper, w.dropWhile isUpper, ?_, hu, hl, by simp [hv], hu', hl',
    ?_, ?_, ?_⟩
  · rw [List.append_assoc v, List.takeWhile_append_dropWhile]
  · intro b hb
    rcases List.mem_append.mp hb with hb | hb
    · exact hv' b hb
    · exact List.mem_takeWhile_imp hb
  · exact fun b hb => hw b ((List.dropWhile_suffix _).subset hb)
  · intro b s hs
    have hne : w.dropWhile isUpper ≠ [] := by simp [hs]
    have hhead := List.head_dropWhile_not isUpper hne
    simpa [hs] using hhead

/-- The longest word at the head is captured when the rest matches after it. -/
theorem doMatch_wordItems_append {js : List Item} {caps : List Capture} {t rest init : Bytes}
    {r : Bytes × List Capture} (ht : IsWikiWord t)
    (hrest : ∀ b s, rest = b :: s → isAlnum b = false)
    (hr : doMatch js (caps ++ [.done (init.take (init.length - rest.length))]) rest = some r) :
    doMatch (wordItems ++ js) (caps ++ [.unfinished init]) (t ++ rest) = some r := by
  obtain ⟨u, l, v, w, rfl, hu, hl, hv, hu', hl', hv', hw, hlong⟩ := ht.longest
  obtain ⟨b, l', rfl⟩ := List.exists_cons_of_ne_nil hl
  obtain ⟨c, v', rfl⟩ := List.exists_cons_of_ne_nil hv
  simp only [List.append_assoc]
  refine doMatch_plus hu (by simpa only [singleMatch_upper] using hu') ?_ ?_
  · rintro d s hd
    obtain ⟨rfl, _⟩ := List.cons.inj hd
    rw [singleMatch_upper]
    exact isLower_not_isUpper (hl' _ (by simp))
  refine doMatch_plus hl (by simpa only [singleMatch_lower] using hl') ?_ ?_
  · rintro d s hd
    obtain ⟨rfl, _⟩ := List.cons.inj hd
    rw [singleMatch_lower]
    exact isUpper_not_isLower (hv' _ (by simp))
  refine doMatch_plus hv (by simpa only [singleMatch_upper] using hv') ?_ ?_
  · intro d s hd
    rw [singleMatch_upper]
    cases w with
    | nil =>
      have hal := hrest d s hd
      exact Bool.eq_false_iff.mpr fun h => by simp [isAlnum_of_isUpper h] at hal
    | cons e w =>
      obtain ⟨rfl, _⟩ := List.cons.inj hd
      exact hlong _ w rfl
  refine doMatch_star (by simpa only [singleMatch_alnum] using hw) ?_ ?_
  · simpa only [singleMatch_alnum] using hrest
  · change doMatch (.endCapture :: js) _ _ = _
    rw [doMatch, endCapture_append]
    exact hr

theorem doMatch_wordItems {caps : List Capture} {t rest init : Bytes} (ht : IsWikiWord t)
    (hrest : ∀ b s, rest = b :: s → isAlnum b = false) :
    doMatch wordItems (caps ++ [.unfinished init]) (t ++ rest) =
      some (rest, caps ++ [.done (init.take (init.length - rest.length))]) := by
  have hword : doMatch (wordItems ++ []) (caps ++ [.unfinished init]) (t ++ rest) = _ :=
    doMatch_wordItems_append ht hrest rfl
  rwa [List.append_nil] at hword

theorem matchHere_word {t : Bytes} (ht : IsWikiWord t) :
    matchHere (.startCapture :: wordItems) t = some ⟨t, [t], []⟩ := by
  have hd : doMatch (.startCapture :: wordItems) [] (t ++ []) = some ([], [.done t]) := by
    have hword : doMatch wordItems ([] ++ [.unfinished t]) (t ++ []) = _ :=
      doMatch_wordItems ht (by simp)
    simpa [doMatch] using hword
  simpa [pushCaptures] using matchHere_of_doMatch hd

theorem matchHere_word_sound {s : Bytes} {m : Match}
    (h : matchHere (.startCapture :: wordItems) s = some m) :
    IsWikiWord m.whole ∧ m.captures = [m.whole] := by
  obtain ⟨⟨rest, caps⟩, hd, rfl⟩ := Option.map_eq_some_iff.mp h
  have hword : doMatch wordItems ([] ++ [.unfinished s]) s = some (rest, caps) := hd
  obtain ⟨t, hs, ht, hcaps⟩ := doMatch_wordItems_sound hword
  simp only at hs hcaps
  have htake : s.take (s.length - rest.length) = t := by
    rw [hs, List.length_append, Nat.add_sub_cancel, List.take_left]
  simp only [hcaps, htake, pushCaptures]
  exact ⟨ht, rfl⟩

/-- The titles the server accepts are the WikiWords. -/
theorem isValidTitle_iff {t : Bytes} : isValidTitle t = true ↔ IsWikiWord t := by
  rw [isValidTitle, decide_eq_true_iff, capture?, wikiWord_pattern]
  constructor
  · intro h
    obtain ⟨⟨before, m⟩, hfind, hcap⟩ := Option.bind_eq_some_iff.mp h
    obtain ⟨v, rfl, hm⟩ := findFrom_sound hfind
    obtain ⟨hword, hcaps⟩ := matchHere_word_sound hm
    have hwhole : m.whole = before ++ v := by simpa [hcaps] using hcap
    exact hwhole ▸ hword
  · intro ht
    have hfind : find ⟨false, .startCapture :: wordItems⟩ t = some ([], ⟨t, [t], []⟩) :=
      findFrom_here (matchHere_word ht)
    rw [hfind]
    rfl

theorem IsWikiWord.alnum {t : Bytes} (ht : IsWikiWord t) : ∀ b ∈ t, isAlnum b := by
  obtain ⟨u, l, v, w, rfl, _, _, _, hu, hl, hv, hw⟩ := ht
  intro b hb
  simp only [List.mem_append] at hb
  rcases hb with hb | hb | hb | hb
  · exact isAlnum_of_isUpper (hu b hb)
  · exact isAlnum_of_isLower (hl b hb)
  · exact isAlnum_of_isUpper (hv b hb)
  · exact hw b hb

theorem IsWikiWord.ne_nil {t : Bytes} (ht : IsWikiWord t) : t ≠ [] := by
  obtain ⟨u, l, v, w, rfl, hu, _⟩ := ht
  simp [hu]

/-! ### Files -/

/-- The path leads to the root directory or below it. -/
def Inside (cwd : List Bytes) (path : Bytes) : Prop :=
  serverConfig.rootDir :: cwd <:+ resolve cwd path

instance (cwd : List Bytes) (path : Bytes) : Decidable (Inside cwd path) :=
  inferInstanceAs (Decidable (_ <:+ _))

/-- A path below the root directory, of one segment. -/
theorem resolve_rootDir {name : Bytes} (hname : ∀ b ∈ name, b ≠ 0 ∧ isSeparator b = false)
    (cwd : List Bytes) :
    resolve cwd (serverConfig.rootDir ++ ch '/' :: name) =
      walk (serverConfig.rootDir :: cwd) name := by
  have hdir : ∀ b ∈ serverConfig.rootDir, b ≠ 0 ∧ isSeparator b = false := by decide
  have hzero : ∀ b ∈ serverConfig.rootDir ++ ch '/' :: name, b ≠ 0 := by
    intro b hb
    rcases List.mem_append.mp hb with hb | hb
    · exact (hdir b hb).1
    · rcases List.mem_cons.mp hb with rfl | hb
      · decide
      · exact (hname b hb).1
  have hsegments : segments (serverConfig.rootDir ++ ch '/' :: name) =
      [serverConfig.rootDir, name] := by
    rw [segments, List.splitOnP_append_cons_of_forall_mem, List.splitOnP_eq_singleton]
    · exact fun b hb => by simp [(hname b hb).2]
    · exact fun b hb => by simp [(hdir b hb).2]
    · decide
  have hwalk : walk cwd serverConfig.rootDir = serverConfig.rootDir :: cwd := by
    rw [walk, if_neg (by decide), if_neg (by decide)]
  rw [resolve, cString_eq_self hzero, hsegments, List.foldl_cons, List.foldl_cons, List.foldl_nil,
    hwalk]

theorem pagePath_eq (t : Bytes) :
    pagePath t = serverConfig.rootDir ++ ch '/' :: (t ++ serverConfig.suffix) := by
  rw [pagePath, show str "/" = [ch '/'] by decide, List.append_assoc, List.append_assoc]
  rfl

/-- The file of a title of letters and digits lies in the root directory. -/
theorem resolve_pagePath {t : Bytes} (ht : ∀ b ∈ t, isAlnum b) (cwd : List Bytes) :
    resolve cwd (pagePath t) = (t ++ serverConfig.suffix) :: serverConfig.rootDir :: cwd := by
  have hplain : ∀ b, isAlnum b = true → b ≠ 0 ∧ isSeparator b = false := by
    intro b hb
    have hslash : b ≠ ch '/' := ne_of_test hb (by decide)
    have hback : b ≠ ch '\\' := ne_of_test hb (by decide)
    exact ⟨ne_of_test hb (by decide), by simp [isSeparator, hslash, hback]⟩
  have hsuffix : ∀ b ∈ serverConfig.suffix, b ≠ 0 ∧ isSeparator b = false := by decide
  have hfile : ∀ b ∈ t ++ serverConfig.suffix, b ≠ 0 ∧ isSeparator b = false := by
    intro b hb
    rcases List.mem_append.mp hb with hb | hb
    · exact hplain b (ht b hb)
    · exact hsuffix b hb
  have hne : ∀ seg : Bytes, seg.length < 4 → t ++ serverConfig.suffix ≠ seg := by
    rintro seg hseg rfl
    rw [List.length_append, show serverConfig.suffix.length = 4 by decide] at hseg
    omega
  rw [pagePath_eq, resolve_rootDir hfile, walk, if_neg, if_neg (hne _ (by decide))]
  rintro (h | h)
  · exact hne _ (by decide) h
  · exact hne _ (by decide) h

theorem inside_pagePath {t : Bytes} (ht : ∀ b ∈ t, isAlnum b) (cwd : List Bytes) :
    Inside cwd (pagePath t) := by
  rw [Inside, resolve_pagePath ht]
  exact List.suffix_cons _ _

end MoonWiki
