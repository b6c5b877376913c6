import MoonWiki.Lua.Infixes

/-! Texts in which a byte always opens one of given words, and the passes that keep them so. -/
namespace Lua

/-- Every `x` of the text opens one of the words. -/
def Tagged (x : Byte) (words : List Bytes) (s : Bytes) : Prop :=
  ∀ v, x :: v <:+ s → ∃ w ∈ words, w <+: v

/-- No end of a word stands at the head of the text. -/
def Clear (words : List Bytes) (v : Bytes) : Prop :=
  ∀ w ∈ words, ∀ b, b <:+ w → b <+: v → b = []

/-- Every end of a word at the head of `u` is at the head of `v`. -/
def Keeps (words : List Bytes) (u v : Bytes) : Prop :=
  ∀ w ∈ words, ∀ b, b <:+ w → b <+: u → b <+: v

variable {x : Byte} {words : List Bytes} {s t u v : Bytes} {is : List Item} {m : Match}

instance (x : Byte) (words : List Bytes) (s : Bytes) : Decidable (Tagged x words s) :=
  decidable_of_iff (∀ t ∈ s.tails, t.head? = some x → ∃ w ∈ words, w <+: t.tail)
    ⟨fun h v hv => h (x :: v) ((List.mem_tails _ _).mpr hv) rfl, fun h t ht hx => by
      obtain ⟨v, rfl⟩ := List.head?_eq_some_iff.mp hx
      exact h v ((List.mem_tails _ _).mp ht)⟩

/-! ### Tagged texts -/

theorem Tagged.of_not_mem (h : x ∉ s) : Tagged x words s := by
  intro v hv
  exact absurd (hv.subset (List.mem_cons_self ..)) h

theorem Tagged.mono {more : List Bytes} (h : Tagged x words s) (hmore : words ⊆ more) :
    Tagged x more s := by
  intro v hv
  obtain ⟨w, hw, hwv⟩ := h v hv
  exact ⟨w, hmore hw, hwv⟩

theorem Tagged.of_suffix (h : Tagged x words s) (hv : v <:+ s) : Tagged x words v := by
  intro r hr
  exact h r (hr.trans hv)

theorem tagged_cons {b : Byte} :
    Tagged x words (b :: s) ↔ (b = x → ∃ w ∈ words, w <+: s) ∧ Tagged x words s := by
  constructor
  · intro h
    refine ⟨?_, h.of_suffix (List.suffix_cons b s)⟩
    rintro rfl
    exact h s (List.suffix_refl _)
  · intro h v hv
    rcases List.suffix_cons_iff.mp hv with heq | hv
    · obtain ⟨rfl, rfl⟩ := List.cons.inj heq
      exact h.1 rfl
    · exact h.2 v hv

theorem Tagged.append (hs : Tagged x words s) (ht : Tagged x words t) :
    Tagged x words (s ++ t) := by
  induction s with
  | nil => exact ht
  | cons b s ih =>
    have hb := tagged_cons.mp hs
    refine tagged_cons.mpr ⟨?_, ih hb.2⟩
    intro hbx
    obtain ⟨w, hw, hws⟩ := hb.1 hbx
    exact ⟨w, hw, hws.trans (List.prefix_append s t)⟩

/-- Where no word goes on, a text may be cut. -/
theorem Tagged.cut (h : Tagged x words (u ++ v)) (hv : Clear words v) : Tagged x words u := by
  induction u with
  | nil => exact .of_not_mem List.not_mem_nil
  | cons b u ih =>
    have hb := tagged_cons.mp h
    refine tagged_cons.mpr ⟨?_, ih hb.2⟩
    intro hbx
    obtain ⟨w, hw, hwuv⟩ := hb.1 hbx
    refine ⟨w, hw, ?_⟩
    rcases List.prefix_or_prefix_of_prefix hwuv (List.prefix_append u v) with hwu | ⟨r, rfl⟩
    · exact hwu
    · obtain rfl := hv _ hw r (List.suffix_append u r) ((List.prefix_append_right_inj u).mp hwuv)
      rw [List.append_nil]

theorem Clear.keeps (h : Clear words u) (v : Bytes) : Keeps words u v := by
  intro w hw b hb hu
  obtain rfl := h w hw b hb hu
  exact List.nil_prefix

theorem Keeps.cons (h : Keeps words u v) (c : Byte) : Keeps words (c :: u) (c :: v) := by
  intro w hw b hb hu
  cases b with
  | nil => exact List.nil_prefix
  | cons d b =>
    obtain ⟨rfl, hbu⟩ := List.cons_prefix_cons.mp hu
    exact List.cons_prefix_cons.mpr ⟨rfl, h w hw b ((List.suffix_cons d b).trans hb) hbu⟩

/-! ### What a match may start with -/

def mayRepeat (p : Byte → Bool) (rest : Bytes → Bool) : Bytes → Bool
  | [] => true
  | c :: s => rest (c :: s) || p c && mayRepeat p rest s

def mayExpand (p : Byte → Bool) (rest : Bytes → Bool) : Quant → Bytes → Bool
  | _, [] => true
  | .one, c :: s => p c && rest s
  | .opt, c :: s => p c && rest s || rest (c :: s)
  | .plus, c :: s => p c && mayRepeat p rest s
  | .star, s => mayRepeat p rest s
  | .minus, s => mayRepeat p rest s

/-- Whether the items may match a text that starts with the given one. -/
def mayStart : List Item → Bytes → Bool
  | [], _ => true
  | .startCapture :: is, s => mayStart is s
  | .endCapture :: is, s => mayStart is s
  | .eos :: _, s => s.isEmpty
  | .single c q :: is, s => mayExpand (singleMatch · c) (mayStart is) q s

section
variable {α : Type} {p : Byte → Bool} {rest : Bytes → Option α} {may : Bytes → Bool}

theorem mayRepeat_of_split (hmay : ∀ b y r, rest (b ++ y) = some r → may b = true) {b y : Bytes}
    {r : α} (hs : b ++ y = u ++ v) (hu : ∀ c ∈ u, p c = true) (hv : rest v = some r) :
    mayRepeat p may b = true := by
  induction b generalizing u with
  | nil => rfl
  | cons c b ih =>
    rw [mayRepeat, Bool.or_eq_true, Bool.and_eq_true]
    cases u with
    | nil =>
      left
      apply hmay (c :: b) y r
      rw [hs]
      exact hv
    | cons d u =>
      right
      rw [List.cons_append, List.cons_append] at hs
      obtain ⟨rfl, htail⟩ := List.cons.inj hs
      exact ⟨hu c (List.mem_cons_self ..), ih htail fun e he => hu e (List.mem_cons_of_mem _ he)⟩

theorem mayExpand_of_expand (hmay : ∀ b y r, rest (b ++ y) = some r → may b = true)
    {q : Quant} {b y : Bytes} {r : α} (h : expand p rest q (b ++ y) = some r) :
    mayExpand p may q b = true := by
  cases b with
  | nil => cases q <;> rfl
  | cons c b =>
    cases q with
    | one =>
      rw [List.cons_append, expand] at h
      split at h
      · rename_i hc
        rw [mayExpand, hc, hmay b y r h]
        rfl
      · cases h
    | opt =>
      rw [List.cons_append, expand] at h
      rw [mayExpand, Bool.or_eq_true, Bool.and_eq_true]
      split at h
      · rename_i hc
        split at h
        · rename_i hrest
          exact .inl ⟨hc, hmay b y _ hrest⟩
        · exact .inr (hmay (c :: b) y r h)
      · exact .inr (hmay (c :: b) y r h)
    | star =>
      obtain ⟨u, v, hs, hu, hv⟩ := maxExpand_sound h
      exact mayRepeat_of_split hmay hs hu hv
    | plus =>
      rw [List.cons_append, expand] at h
      split at h
      · rename_i hc
        obtain ⟨u, v, hs, hu, hv⟩ := maxExpand_sound h
        rw [mayExpand, hc, mayRepeat_of_split hmay hs hu hv]
        rfl
      · cases h
    | minus =>
      obtain ⟨u, v, hs, hu, hv⟩ := minExpand_sound h
      exact mayRepeat_of_split hmay hs hu hv

end

theorem mayStart_of_doMatch {caps : List Capture} {b y : Bytes} {r : Bytes × List Capture}
    (h : doMatch is caps (b ++ y) = some r) : mayStart is b = true := by
  induction is generalizing caps b y r with
  | nil => rfl
  | cons i is ih =>
    cases i with
    | single c q => exact mayExpand_of_expand (fun b y r hr => ih hr) h
    | startCapture => exact ih h
    | endCapture => exact ih h
    | eos =>
      rw [doMatch] at h
      split at h
      · rename_i hs
        rw [mayStart, (List.append_eq_nil_iff.mp hs).1]
        rfl
      · cases h

/-- No match starts with the end of a word. -/
def avoids (words : List Bytes) (is : List Item) : Bool :=
  words.all fun w => w.tails.all fun b => b.isEmpty || !mayStart is b

theorem clear_of_avoids (h : avoids words is = true) {caps : List Capture}
    {r : Bytes × List Capture} (hm : doMatch is caps v = some r) : Clear words v := by
  rintro w hw b hb ⟨y, rfl⟩
  have hall := List.all_eq_true.mp (List.all_eq_true.mp h w hw) b ((List.mem_tails _ _).mpr hb)
  rw [mayStart_of_doMatch hm, Bool.or_eq_true] at hall
  rcases hall with hnil | hfalse
  · exact List.isEmpty_iff.mp hnil
  · cases hfalse

theorem avoids_mono {more : List Bytes} (h : avoids more is = true) (hmore : words ⊆ more) :
    avoids words is = true := by
  rw [avoids, List.all_eq_true] at h ⊢
  intro w hw
  exact h w (hmore hw)

/-! ### What a match captures -/

/-- Every capture holds no `x` or ends where no word goes on. The flag of the open capture tells
whether it may hold an `x`. -/
def cutsWhole (x : Byte) (words : List Bytes) : Option Bool → List Item → Bool
  | o, [] => o.isNone
  | none, .startCapture :: is => cutsWhole x words (some false) is
  | some _, .startCapture :: _ => false
  | none, .endCapture :: _ => false
  | some holds, .endCapture :: is => (!holds || avoids words is) && cutsWhole x words none is
  | o, .single c _ :: is => cutsWhole x words (o.map (· || singleMatch x c)) is
  | o, .eos :: is => cutsWhole x words o is

/-- The captures so far are tagged, and so is the subject from the open one on. -/
def CapturesTagged (x : Byte) (words : List Bytes) :
    Option Bool → List Capture → Bytes → Prop
  | none, caps, s => (∀ d ∈ caps, ∃ t, d = .done t ∧ Tagged x words t) ∧ Tagged x words s
  | some holds, caps, s => ∃ cs u, caps = cs ++ [.unfinished (u ++ s)] ∧
      (∀ d ∈ cs, ∃ t, d = .done t ∧ Tagged x words t) ∧ Tagged x words (u ++ s) ∧
      (holds = false → x ∉ u)

theorem CapturesTagged.skip {o : Option Bool} {caps : List Capture} {c : Single}
    (h : CapturesTagged x words o caps (u ++ v)) (hu : ∀ b ∈ u, singleMatch b c = true) :
    CapturesTagged x words (o.map (· || singleMatch x c)) caps v := by
  cases o with
  | none => exact ⟨h.1, h.2.of_suffix (List.suffix_append u v)⟩
  | some holds =>
    obtain ⟨cs, w, hcaps, hcs, htagged, hw⟩ := h
    rw [← List.append_assoc] at hcaps htagged
    refine ⟨cs, w ++ u, hcaps, hcs, htagged, ?_⟩
    intro hfalse hmem
    obtain ⟨hholds, hx⟩ := Bool.or_eq_false_iff.mp hfalse
    rcases List.mem_append.mp hmem with hmem | hmem
    · exact hw hholds hmem
    · rw [hu x hmem] at hx
      cases hx

theorem doMatch_tagged {o : Option Bool} {caps : List Capture} {r : Bytes} {c : List Capture}
    (hcuts : cutsWhole x words o is = true) (hcaps : CapturesTagged x words o caps s)
    (h : doMatch is caps s = some (r, c)) : ∀ d ∈ c, ∃ t, d = .done t ∧ Tagged x words t := by
  induction is generalizing o caps s with
  | nil =>
    cases o with
    | none =>
      obtain ⟨rfl, rfl⟩ := Prod.mk.inj (Option.some.inj h)
      exact hcaps.1
    | some holds => cases hcuts
  | cons i is ih =>
    cases i with
    | single d q =>
      obtain ⟨u, v, rfl, hu, hv⟩ := expand_sound h
      apply ih _ (hcaps.skip hu) hv
      cases o <;> exact hcuts
    | startCapture =>
      cases o with
      | none => exact ih hcuts ⟨caps, [], rfl, hcaps.1, hcaps.2, fun _ => List.not_mem_nil⟩ h
      | some holds => cases hcuts
    | endCapture =>
      cases o with
      | none => cases hcuts
      | some holds =>
        obtain ⟨cs, u, rfl, hcs, htagged, hu⟩ := hcaps
        obtain ⟨hcut, hrest⟩ := Bool.and_eq_true_iff.mp hcuts
        rw [doMatch_endCapture] at h
        refine ih hrest ⟨?_, htagged.of_suffix (List.suffix_append u s)⟩ h
        intro d hd
        rcases List.mem_append.mp hd with hd | hd
        · exact hcs d hd
        · refine ⟨u, List.mem_singleton.mp hd, ?_⟩
          cases holds with
          | false => exact .of_not_mem (hu rfl)
          | true => exact htagged.cut (clear_of_avoids hcut h)
    | eos =>
      rw [doMatch] at h
      split at h
      · apply ih _ hcaps h
        cases o <;> exact hcuts
      · cases h

theorem endCapture_length (s : Bytes) (caps : List Capture) :
    (endCapture s caps).length = caps.length := by
  induction caps with
  | nil => rfl
  | cons c caps ih =>
    unfold endCapture
    split
    · rw [List.length_cons, ih, List.length_cons]
    · cases c <;> rfl

theorem doMatch_captures {caps : List Capture} {r : Bytes} {c : List Capture}
    (h : doMatch is caps s = some (r, c)) :
    caps.length + is.count .startCapture = c.length := by
  induction is generalizing caps s with
  | nil =>
    obtain ⟨rfl, rfl⟩ := Prod.mk.inj (Option.some.inj h)
    rfl
  | cons i is ih =>
    cases i with
    | single d q =>
      obtain ⟨u, v, rfl, -, hv⟩ := expand_sound h
      rw [← ih hv]
      rfl
    | startCapture =>
      have hlength := ih h
      rw [List.length_append, List.length_singleton] at hlength
      rw [List.count_cons_self]
      omega
    | endCapture =>
      have hlength := ih h
      rwa [endCapture_length] at hlength
    | eos =>
      rw [doMatch] at h
      split at h
      · exact ih h
      · cases h

theorem captures_length (hcap : .startCapture ∈ is) (h : matchHere is s = some m) :
    m.captures.length = is.count .startCapture := by
  obtain ⟨⟨r, c⟩, hd, rfl⟩ := Option.map_eq_some_iff.mp h
  have hlength := doMatch_captures hd
  have hcount := List.count_pos_iff.mpr hcap
  rw [List.length_nil, Nat.zero_add] at hlength
  have hne : c ≠ [] := by
    rintro rfl
    rw [List.length_nil] at hlength
    omega
  simp only [pushCaptures, if_neg hne, List.length_map]
  omega

/-- The captures of a match in a tagged text are tagged. -/
theorem matchHere_tagged (hcuts : cutsWhole x words none is = true) (hcap : .startCapture ∈ is)
    (hs : Tagged x words s) (h : matchHere is s = some m) :
    ∀ t ∈ m.captures, Tagged x words t := by
  have hcount := List.count_pos_iff.mpr hcap
  obtain ⟨⟨r, c⟩, hd, rfl⟩ := Option.map_eq_some_iff.mp h
  have hdone := doMatch_tagged hcuts ⟨fun d hd => absurd hd List.not_mem_nil, hs⟩ hd
  have hne : c ≠ [] := by
    rintro rfl
    have hnone := doMatch_captures hd
    rw [List.length_nil] at hnone
    omega
  intro t ht
  simp only [pushCaptures, if_neg hne] at ht
  obtain ⟨d, hd, rfl⟩ := List.mem_map.mp ht
  obtain ⟨text, rfl, htext⟩ := hdone d hd
  exact htext

theorem gfind_match {p : Pattern} {cs : List Bytes} (h : cs ∈ gfind p s) :
    ∃ v m, v <:+ s ∧ matchHere p.items v = some m ∧ cs = m.captures := by
  obtain ⟨m, hm, rfl⟩ := List.mem_map.mp h
  obtain ⟨piece, hpiece, hhit⟩ := List.mem_filterMap.mp hm
  cases piece with
  | copy b => cases hhit
  | hit m' =>
    obtain rfl := Option.some.inj hhit
    obtain ⟨v, hv, hmatch⟩ := scan_hit hpiece
    exact ⟨v, m', hv, hmatch, rfl⟩

theorem gfind_tagged {p : Pattern} (hcuts : cutsWhole x words none p.items = true)
    (hcap : .startCapture ∈ p.items) (hs : Tagged x words s) :
    ∀ cs ∈ gfind p s, ∀ t ∈ cs, Tagged x words t := by
  intro cs hcs
  obtain ⟨v, m, hv, hmatch, rfl⟩ := gfind_match hcs
  exact matchHere_tagged hcuts hcap (hs.of_suffix hv) hmatch

theorem capture_tagged {p : Pattern} (hcuts : cutsWhole x words none p.items = true)
    (hcap : .startCapture ∈ p.items) (hs : Tagged x words s) (h : capture? p s = some t) :
    Tagged x words t := by
  obtain ⟨⟨before, m⟩, hfind, hhead⟩ := Option.bind_eq_some_iff.mp h
  have hmem : t ∈ m.captures := List.mem_of_head? hhead
  rw [find] at hfind
  split at hfind
  · obtain ⟨m', hm, heq⟩ := Option.map_eq_some_iff.mp hfind
    obtain ⟨-, rfl⟩ := Prod.mk.inj heq
    exact matchHere_tagged hcuts hcap hs hm t hmem
  · obtain ⟨v, rfl, hm⟩ := findFrom_sound hfind
    exact matchHere_tagged hcuts hcap (hs.of_suffix (List.suffix_append before v)) hm t hmem

/-! ### Passes over a tagged text -/

/-- A pass keeps the text tagged when each replacement does, in front of whatever the pass
makes of the rest. -/
theorem replaceAll_tagged {f : Match → Bytes} (hmin : 0 < minLength is)
    (hf : ∀ v m, matchHere is v = some m → Tagged x words v → ∀ y, Tagged x words y →
      Keeps words m.after y → Tagged x words (f m ++ y) ∧ Keeps words v (f m ++ y))
    (hs : Tagged x words s) :
    Tagged x words (replaceAll ⟨false, is⟩ f s) ∧ Keeps words s (replaceAll ⟨false, is⟩ f s) := by
  induction hlength : s.length using Nat.strong_induction_on generalizing s with
  | _ n ih =>
    cases hm : matchHere is s with
    | none =>
      cases s with
      | nil =>
        rw [replaceAll_nil hm]
        exact ⟨hs, fun w _ b _ h => h⟩
      | cons c s =>
        have hc := tagged_cons.mp hs
        have hrest := ih s.length (by rw [← hlength, List.length_cons]; omega) hc.2 rfl
        rw [replaceAll_miss hm]
        refine ⟨tagged_cons.mpr ⟨?_, hrest.1⟩, hrest.2.cons c⟩
        intro hcx
        obtain ⟨w, hw, hws⟩ := hc.1 hcx
        exact ⟨w, hw, hrest.2 w hw w (List.suffix_refl w) hws⟩
    | some m =>
      have hne := matchHere_nonempty hmin hm
      have hsplit := matchHere_append hm
      have hafter : m.after <:+ s := ⟨m.whole, hsplit⟩
      have hshort : m.after.length < n := by
        have hpos := List.length_pos_iff.mpr hne
        rw [← hlength, ← hsplit, List.length_append]
        omega
      have hrest := ih m.after.length hshort (hs.of_suffix hafter) rfl
      rw [replaceAll_hit hm hne]
      exact hf s m hm hs _ hrest.1 hrest.2

/-- Where no match starts inside a word, tagged replacements are enough. -/
theorem Tagged.replaceAll {p : Pattern} {f : Match → Bytes}
    (hp : p.anchor = true ∨ 0 < minLength p.items ∧ avoids words p.items = true)
    (hf : ∀ v m, matchHere p.items v = some m → Tagged x words v → Tagged x words (f m))
    (hs : Tagged x words s) : Tagged x words (replaceAll p f s) := by
  obtain ⟨anchor, is⟩ := p
  cases anchor with
  | false =>
    rcases hp with hanchor | ⟨hmin, havoids⟩
    · cases hanchor
    · refine (replaceAll_tagged hmin ?_ hs).1
      intro v m hm hv y hy _
      obtain ⟨r, hr, -⟩ := Option.map_eq_some_iff.mp hm
      exact ⟨(hf v m hm hv).append hy, (clear_of_avoids havoids hr).keeps _⟩
  | true =>
    rw [replaceAll_anchor]
    cases hm : matchHere is s with
    | none => exact hs
    | some m =>
      have hafter : m.after <:+ s := ⟨m.whole, matchHere_append hm⟩
      exact (hf s m hm hs).append (hs.of_suffix hafter)

/-- A word without captures is copied. -/
theorem prefix_addS {w repl : Bytes} (hw : ch '%' ∉ w) (h : w <+: repl) : w <+: addS m repl := by
  obtain ⟨z, rfl⟩ := h
  have hlast : w.getLast? ≠ some (ch '%') := by
    intro hlast
    exact hw (List.mem_of_getLast? hlast)
  rw [addS_append m hlast, addS_plain m hw]
  exact List.prefix_append w _

/-- A replacement text whose own bytes open words only. -/
theorem addS_tagged {repl : Bytes} (hrepl : Tagged x words repl)
    (hwords : ∀ w ∈ words, ch '%' ∉ w) (hwhole : ¬ str "%0" <:+: repl)
    (hcaptures : ∀ t ∈ m.captures, Tagged x words t) : Tagged x words (addS m repl) := by
  fun_induction addS m repl with
  | case1 => exact hrepl
  | case2 => exact .of_not_mem List.not_mem_nil
  | case3 b hb => exact hrepl
  | case4 d s ih =>
    have htail := hrepl.of_suffix (List.suffix_cons _ _)
    have hrest := ih (htail.of_suffix (List.suffix_cons d s)) fun h =>
      hwhole (h.trans ((List.suffix_cons d s).trans (List.suffix_cons _ _)).isInfix)
    split
    · have hzero : d ≠ ch '0' := by
        rintro rfl
        exact hwhole ⟨[], s, rfl⟩
      rw [if_neg hzero]
      refine Tagged.append ?_ hrest
      rw [List.getD_eq_getElem?_getD]
      cases hget : m.captures[d.toNat - 49]? with
      | none => exact .of_not_mem List.not_mem_nil
      | some t => exact hcaptures t (List.mem_of_getElem? hget)
    · refine tagged_cons.mpr ⟨?_, hrest⟩
      intro hd
      obtain ⟨w, hw, hws⟩ := (tagged_cons.mp htail).1 hd
      exact ⟨w, hw, prefix_addS (hwords w hw) hws⟩
  | case5 b d s hb ih =>
    have hcons := tagged_cons.mp hrepl
    have hrest := ih hcons.2 fun h => hwhole (h.trans (List.suffix_cons _ _).isInfix)
    refine tagged_cons.mpr ⟨?_, hrest⟩
    intro hbx
    obtain ⟨w, hw, hws⟩ := hcons.1 hbx
    exact ⟨w, hw, prefix_addS (hwords w hw) hws⟩

/-- A replacement that keeps every text tagged, whichever words between these two lists are
taken. -/
def Pattern.keepsTagged (p : Pattern) (x : Byte) (few many : List Bytes) (repl : Bytes) : Bool :=
  (p.anchor || decide (0 < minLength p.items) && avoids many p.items) &&
    (decide (Tagged x few repl) && many.all fun w => !w.contains (ch '%')) &&
    (!repl.contains (ch '%') || cutsWhole x many none p.items &&
      p.items.contains .startCapture && !decide (str "%0" <:+: repl))

theorem cutsWhole_mono {more : List Bytes} {o : Option Bool}
    (h : cutsWhole x more o is = true) (hmore : words ⊆ more) : cutsWhole x words o is = true := by
  fun_induction cutsWhole x more o is with
  | case1 o => exact h
  | case2 is ih => exact ih h
  | case3 => exact h
  | case4 => exact h
  | case5 holds is ih =>
    obtain ⟨hcut, hrest⟩ := Bool.and_eq_true_iff.mp h
    rw [cutsWhole, ih hrest, Bool.and_true]
    rcases Bool.or_eq_true_iff.mp hcut with hholds | havoids
    · rw [hholds, Bool.true_or]
    · rw [avoids_mono havoids hmore, Bool.or_true]
  | case6 o c q is ih => exact ih h
  | case7 o is ih => exact ih h

theorem Tagged.gsubStr {p : Pattern} {few many : List Bytes} {repl : Bytes}
    (hp : p.keepsTagged x few many repl = true) (hfew : few ⊆ words) (hmany : words ⊆ many)
    (hs : Tagged x words s) : Tagged x words (gsubStr p repl s) := by
  simp only [Pattern.keepsTagged, Bool.and_eq_true, Bool.or_eq_true, decide_eq_true_eq,
    List.all_eq_true, Bool.not_eq_true', List.contains_eq_mem, decide_eq_false_iff_not] at hp
  obtain ⟨⟨hstart, hrepl, hwords⟩, hcaptures⟩ := hp
  apply Tagged.replaceAll _ _ hs
  · exact hstart.imp_right fun h => ⟨h.1, avoids_mono h.2 hmany⟩
  · intro v m hm hv
    rcases hcaptures with hplain | ⟨⟨hcuts, hcap⟩, hwhole⟩
    · rw [addS_plain m hplain]
      exact hrepl.mono hfew
    · apply addS_tagged (hrepl.mono hfew) (fun w hw => hwords w (hmany hw)) hwhole
      exact matchHere_tagged (cutsWhole_mono hcuts hmany) hcap hv hm

theorem gsubStr_nil_eos (is : List Item) : Lua.gsubStr ⟨false, is ++ [.eos]⟩ [] [] = [] := by
  cases hm : matchHere (is ++ [.eos]) [] with
  | none => exact replaceAll_nil hm
  | some m =>
    rw [Lua.gsubStr, Lua.replaceAll, scan, if_neg Bool.false_ne_true, scanFrom, hm]
    rfl

/-- What is cut off the end of a text is a match that no word reaches into. -/
theorem gsubStr_trim (havoids : avoids words (is ++ [.eos]) = true) (s : Bytes) :
    ∃ v, s = Lua.gsubStr ⟨false, is ++ [.eos]⟩ [] s ++ v ∧ Clear words v := by
  induction s with
  | nil =>
    refine ⟨[], ?_, fun w _ b _ hb => List.prefix_nil.mp hb⟩
    rw [gsubStr_nil_eos, List.append_nil]
  | cons c s ih =>
    cases hm : matchHere (is ++ [.eos]) (c :: s) with
    | none =>
      obtain ⟨v, hv, hclear⟩ := ih
      refine ⟨v, ?_, hclear⟩
      rw [Lua.gsubStr, replaceAll_miss hm, List.cons_append]
      exact congrArg (c :: ·) hv
    | some m =>
      obtain ⟨r, hr, -⟩ := Option.map_eq_some_iff.mp hm
      refine ⟨c :: s, ?_, clear_of_avoids havoids hr⟩
      have hafter := matchHere_eos hm
      have hwhole : m.whole ≠ [] := by
        intro hnil
        have happ := matchHere_append hm
        rw [hnil, hafter] at happ
        cases happ
      rw [Lua.gsubStr, replaceAll_hit hm hwhole, hafter]
      exact (congrArg (· ++ c :: s) (gsubStr_nil_eos is)).symm

theorem Tagged.trim (havoids : avoids words (is ++ [.eos]) = true) (hs : Tagged x words s) :
    Tagged x words (Lua.gsubStr ⟨false, is ++ [.eos]⟩ [] s) := by
  obtain ⟨v, hv, hclear⟩ := gsubStr_trim havoids s
  rw [hv] at hs
  exact hs.cut hclear

end Lua
