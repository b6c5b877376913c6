import MoonWiki.Lua.Matching

/-! The end of a text under `string.gsub`, and state that is carried through it. -/
namespace Lua

section
variable {σ : Type} {p : Pattern} {f : List Bytes → σ → Bytes × σ} {st : σ}

/-- One round of `gsubState`. -/
def gsubStep (f : List Bytes → σ → Bytes × σ) : Bytes × σ → Piece → Bytes × σ
  | (out, st), .copy b => (out ++ [b], st)
  | (out, st), .hit m => (out ++ (f m.captures st).1, (f m.captures st).2)

theorem gsubState_eq (p : Pattern) (f : List Bytes → σ → Bytes × σ) (s : Bytes) (st : σ) :
    gsubState p f s st = (scan p s).foldl (gsubStep f) ([], st) := by
  refine congrArg (fun g => (scan p s).foldl g ([], st)) (funext fun out => funext fun piece => ?_)
  cases piece <;> rfl

/-- What the function of a `gsub` preserves, the whole `gsub` does. -/
theorem gsubState_preserves {P : σ → Prop} (h : ∀ cs st, P st → P (f cs st).2) (s : Bytes)
    (hst : P st) : P (gsubState p f s st).2 := by
  have hfold : ∀ (pieces : List Piece) (out : Bytes × σ), P out.2 →
      P (pieces.foldl (gsubStep f) out).2 := by
    intro pieces
    induction pieces with
    | nil => exact fun _ hout => hout
    | cons piece pieces ih =>
      rintro ⟨out, st⟩ hout
      cases piece with
      | copy b => exact ih _ hout
      | hit m => exact ih _ (h m.captures st hout)
  rw [gsubState_eq]
  exact hfold _ _ hst

/-- The state after a `gsub` is that after its matches in order. -/
theorem gsubState_snd (s : Bytes) (st : σ) :
    (gsubState p f s st).2 = (gfind p s).foldl (fun st cs => (f cs st).2) st := by
  have hfold : ∀ (pieces : List Piece) (out : Bytes × σ), (pieces.foldl (gsubStep f) out).2 =
      ((pieces.filterMap Piece.hit?).map Match.captures).foldl (fun st cs => (f cs st).2)
        out.2 := by
    intro pieces
    induction pieces with
    | nil => exact fun _ => rfl
    | cons piece pieces ih =>
      rintro ⟨out, st⟩
      cases piece with
      | copy b => exact ih _
      | hit m => exact ih _
  rw [gsubState_eq]
  exact hfold _ _

end

/-! ### The least length of a match -/

/-- How many bytes an item takes at least. -/
def Item.minLength : Item → Nat
  | .single _ .one => 1
  | .single _ .plus => 1
  | _ => 0

def minLength (is : List Item) : Nat := (is.map Item.minLength).sum

theorem expand_minLength {α : Type} {q : Quant} {p : Byte → Bool} {rest : Bytes → Option α}
    {s : Bytes} {r : α} {c : Single} (h : expand p rest q s = some r) :
    ∃ u v, s = u ++ v ∧ (Item.single c q).minLength ≤ u.length ∧ rest v = some r := by
  cases q with
  | one =>
    cases s with
    | nil => simp [expand] at h
    | cons b s =>
      rw [expand] at h
      split at h
      · exact ⟨[b], s, rfl, Nat.le_refl 1, h⟩
      · cases h
  | plus =>
    cases s with
    | nil => simp [expand] at h
    | cons b s =>
      rw [expand] at h
      split at h
      · obtain ⟨u, v, rfl, _, hv⟩ := maxExpand_sound h
        exact ⟨b :: u, v, rfl, by simp [Item.minLength], hv⟩
      · cases h
  | opt =>
    obtain ⟨u, v, rfl, _, hv⟩ := expand_sound h
    exact ⟨u, v, rfl, Nat.zero_le _, hv⟩
  | star =>
    obtain ⟨u, v, rfl, _, hv⟩ := expand_sound h
    exact ⟨u, v, rfl, Nat.zero_le _, hv⟩
  | minus =>
    obtain ⟨u, v, rfl, _, hv⟩ := expand_sound h
    exact ⟨u, v, rfl, Nat.zero_le _, hv⟩

theorem doMatch_minLength {is : List Item} {caps : List Capture} {s r : Bytes}
    {c : List Capture} (h : doMatch is caps s = some (r, c)) :
    minLength is + r.length ≤ s.length := by
  induction is generalizing caps s with
  | nil =>
    simp only [doMatch, Option.some.injEq, Prod.mk.injEq] at h
    simp [minLength, h.1]
  | cons i is ih =>
    have hcons : minLength (i :: is) = i.minLength + minLength is := by simp [minLength]
    rw [hcons]
    cases i with
    | single cl q =>
      obtain ⟨u, v, rfl, hu, hv⟩ := expand_minLength (c := cl) h
      have hrest := ih hv
      rw [List.length_append]
      omega
    | startCapture => simpa [Item.minLength] using ih h
    | endCapture => simpa [Item.minLength] using ih h
    | eos =>
      rw [doMatch] at h
      split at h
      · simpa [Item.minLength] using ih h
      · cases h

/-- A pattern with an item that takes a byte has no empty match. -/
theorem matchHere_nonempty {is : List Item} (hmin : 0 < minLength is) {s : Bytes} {m : Match}
    (h : matchHere is s = some m) : m.whole ≠ [] := by
  obtain ⟨⟨r, c⟩, hm, rfl⟩ := Option.map_eq_some_iff.mp h
  have hlen := doMatch_minLength hm
  have hpos : 0 < s.length := by omega
  simp only [ne_eq, List.take_eq_nil_iff, not_or]
  refine ⟨by omega, List.ne_nil_of_length_pos hpos⟩

theorem matchHere_nil {is : List Item} (hmin : 0 < minLength is) : matchHere is [] = none := by
  cases h : matchHere is [] with
  | none => rfl
  | some m =>
    have happ := matchHere_append h
    exact absurd (List.append_eq_nil_iff.mp happ).1 (matchHere_nonempty hmin h)

/-! ### The last byte -/

/-- The last byte is one of these. -/
def EndsIn (p : Byte → Bool) (s : Bytes) : Prop := ∃ u b, s = u ++ [b] ∧ p b = true

section
variable {p : Byte → Bool} {s t v : Bytes}

theorem EndsIn.append (h : EndsIn p t) (s : Bytes) : EndsIn p (s ++ t) := by
  obtain ⟨u, b, rfl, hb⟩ := h
  exact ⟨s ++ u, b, by simp, hb⟩

theorem EndsIn.ne_nil (h : EndsIn p s) : s ≠ [] := by
  obtain ⟨u, b, rfl, _⟩ := h
  simp

theorem EndsIn.of_suffix (h : EndsIn p s) (hv : v <:+ s) (hne : v ≠ []) : EndsIn p v := by
  obtain ⟨u, b, rfl, hb⟩ := h
  rcases List.suffix_concat_iff.mp hv with rfl | ⟨w, rfl, _⟩
  · exact absurd rfl hne
  · exact ⟨w, b, by simp, hb⟩

/-- What stands for a piece. -/
def Piece.text (f : Match → Bytes) : Piece → Bytes
  | .copy b => [b]
  | .hit m => f m

theorem replaceAll_pieces (p : Pattern) (f : Match → Bytes) (s : Bytes) :
    replaceAll p f s = (scan p s).flatMap (Piece.text f) := rfl

/-- An anchored pattern replaces at the start only. -/
theorem replaceAll_anchor (is : List Item) (f : Match → Bytes) (s : Bytes) :
    replaceAll ⟨true, is⟩ f s = ((matchHere is s).map fun m => f m ++ m.after).getD s := by
  have hcopy : ∀ u : Bytes, (u.map Piece.copy).flatMap (Piece.text f) = u := by
    intro u
    induction u with
    | nil => rfl
    | cons b u ih => simp [Piece.text, ih]
  rw [replaceAll_pieces, scan]
  cases matchHere is s with
  | none => exact hcopy s
  | some m => exact congrArg (f m ++ ·) (hcopy m.after)

/-- The last byte is kept by a `gsub` whose replacement ends well where a match ends the text. -/
theorem replaceAll_endsIn {pt : Pattern} {f : Match → Bytes} (hmin : 0 < minLength pt.items)
    (hs : EndsIn p s)
    (hf : ∀ v m, v <:+ s → matchHere pt.items v = some m → m.after = [] → EndsIn p (f m)) :
    EndsIn p (replaceAll pt f s) := by
  obtain ⟨anchor, is⟩ := pt
  cases anchor with
  | true =>
    rw [replaceAll_anchor]
    cases hm : matchHere is s with
    | none => exact hs
    | some m =>
      by_cases hafter : m.after = []
      · simpa [hafter] using hf s m List.suffix_rfl hm hafter
      · have hsuffix : m.after <:+ s := ⟨m.whole, matchHere_append hm⟩
        exact (hs.of_suffix hsuffix hafter).append _
  | false =>
    induction hn : s.length using Nat.strong_induction_on generalizing s with
    | _ n ih =>
      obtain ⟨b, s, rfl⟩ := List.exists_cons_of_ne_nil hs.ne_nil
      cases hm : matchHere is (b :: s) with
      | none =>
        rw [replaceAll_miss hm]
        by_cases hnil : s = []
        · subst hnil
          rwa [replaceAll_nil (matchHere_nil hmin)]
        · refine EndsIn.append (ih s.length (by simp [← hn])
            (hs.of_suffix (List.suffix_cons b s) hnil) (fun v m hv => ?_) rfl) [b]
          exact hf v m (hv.trans (List.suffix_cons b s))
      | some m =>
        have hne := matchHere_nonempty hmin hm
        have happ := matchHere_append hm
        have hsuffix : m.after <:+ b :: s := ⟨m.whole, happ⟩
        rw [replaceAll_hit hm hne]
        by_cases hafter : m.after = []
        · rw [hafter, replaceAll_nil (matchHere_nil hmin), List.append_nil]
          exact hf _ m List.suffix_rfl hm hafter
        · have hlen : m.after.length < n := by
            have hpos := List.length_pos_iff.mpr hne
            have hsum := congrArg List.length happ
            rw [List.length_append, hn] at hsum
            omega
          exact EndsIn.append (ih _ hlen (hs.of_suffix hsuffix hafter)
            (fun v m hv => hf v m (hv.trans hsuffix)) rfl) _

/-! ### Replacement strings -/

/-- A replacement string is expanded piece by piece, unless it is cut behind a `%`. -/
theorem addS_append (m : Match) {r : Bytes} (hr : r.getLast? ≠ some (ch '%')) (t : Bytes) :
    addS m (r ++ t) = addS m r ++ addS m t := by
  fun_induction addS m r with
  | case1 => rfl
  | case2 => simp at hr
  | case3 b hb =>
    cases t with
    | nil => simp [addS, hb]
    | cons d t => simp [addS, hb]
  | case4 d s ih =>
    have hs : s.getLast? ≠ some (ch '%') := by
      cases s with
      | nil => simp
      | cons c s => simpa [List.getLast?_cons_cons] using hr
    simp [addS, ih hs]
  | case5 b d s hb ih =>
    have hs : (d :: s).getLast? ≠ some (ch '%') := by
      simpa [List.getLast?_cons_cons] using hr
    have htail := ih hs
    rw [List.cons_append] at htail
    simp [addS, hb, htail]

/-- The replacement string ends in a byte of the set that stands for itself. -/
def endsPlain (p : Byte → Bool) (repl : Bytes) : Bool :=
  match repl.getLast? with
  | none => false
  | some b => p b && b != ch '%' && repl.dropLast.getLast? != some (ch '%')

theorem addS_endsIn (m : Match) {repl : Bytes} (h : endsPlain p repl = true) :
    EndsIn p (addS m repl) := by
  rw [endsPlain] at h
  cases hlast : repl.getLast? with
  | none => simp [hlast] at h
  | some b =>
    simp only [hlast, Bool.and_eq_true, bne_iff_ne, ne_eq] at h
    obtain ⟨⟨hb, hpercent⟩, hbefore⟩ := h
    have hone : addS m [b] = [b] := by simp [addS, hpercent]
    have hsplit : repl = repl.dropLast ++ [b] := (List.dropLast_append_getLast? b hlast).symm
    rw [hsplit, addS_append m hbefore, hone]
    exact ⟨_, b, rfl, hb⟩

theorem gsubStr_endsIn {pt : Pattern} {repl : Bytes} (hmin : 0 < minLength pt.items)
    (hrepl : endsPlain p repl = true) (hs : EndsIn p s) : EndsIn p (gsubStr pt repl s) :=
  replaceAll_endsIn hmin hs fun _ m _ _ _ => addS_endsIn m hrepl

end

/-! ### Matches that end in a literal text -/

theorem doMatch_append_sound {is js : List Item} {caps : List Capture} {s r : Bytes}
    {c : List Capture} (h : doMatch (is ++ js) caps s = some (r, c)) :
    ∃ caps' v, v <:+ s ∧ doMatch js caps' v = some (r, c) := by
  induction is generalizing caps s with
  | nil => exact ⟨caps, s, List.suffix_rfl, h⟩
  | cons i is ih =>
    cases i with
    | single cl q =>
      obtain ⟨u, v, rfl, _, hv⟩ := expand_sound h
      obtain ⟨caps', w, hw, hmatch⟩ := ih hv
      exact ⟨caps', w, hw.trans (List.suffix_append u v), hmatch⟩
    | startCapture => exact ih h
    | endCapture => exact ih h
    | eos =>
      rw [List.cons_append, doMatch] at h
      split at h
      · exact ih h
      · cases h

/-- The text of the match ends in the literal one. -/
theorem matchHere_literal_end {is : List Item} {bs s : Bytes} {m : Match}
    (h : matchHere (is ++ literalItems bs) s = some m) : ∃ w, m.whole = w ++ bs := by
  have happ := matchHere_append h
  obtain ⟨⟨r, c⟩, hm, heq⟩ := Option.map_eq_some_iff.mp h
  have hafter : m.after = r := by rw [← heq]
  obtain ⟨caps, v, ⟨w, hw⟩, hv⟩ := doMatch_append_sound hm
  by_cases hp : bs <+: v
  · obtain ⟨t, rfl⟩ := hp
    have ht : doMatch (literalItems bs ++ []) caps (bs ++ t) = doMatch [] caps t :=
      doMatch_literal bs [] caps t
    rw [List.append_nil, hv] at ht
    obtain ⟨rfl, _⟩ := Prod.mk.inj (Option.some.inj ht)
    refine ⟨w, ?_⟩
    rw [hafter, ← hw, ← List.append_assoc] at happ
    exact List.append_cancel_right happ
  · have hnone : doMatch (literalItems bs ++ []) caps v = none := doMatch_literal_none hp
    rw [List.append_nil, hv] at hnone
    cases hnone

/-! ### The end of a scan -/

/-- When no match reaches the last byte, it is copied after one more piece. -/
theorem scanFrom_end (is : List Item) (hmin : 0 < minLength is) {s u : Bytes} {g b : Byte}
    (hs : s = u ++ [g, b])
    (hend : ∀ v m, v <:+ s → matchHere is v = some m → m.after ≠ []) :
    ∃ pieces last, scanFrom is 0 s = pieces ++ [last] ++ [.copy b] ∧
      (last = .copy g ∨ ∃ v m, v <:+ s ∧ matchHere is v = some m ∧ m.after = [b] ∧
        last = .hit m) := by
  have hlast : scanFrom is 0 [b] = [.copy b] := by
    have hmiss : matchHere is [b] = none := by
      cases hm : matchHere is [b] with
      | none => rfl
      | some m =>
        have happ := matchHere_append hm
        have hafter := hend [b] m (hs ▸ ⟨u ++ [g], by simp⟩) hm
        have hne := matchHere_nonempty hmin hm
        rcases List.append_eq_singleton_iff.mp happ with ⟨h, _⟩ | ⟨_, h⟩
        · exact absurd h hne
        · exact absurd h hafter
    rw [scanFrom_miss hmiss, scanFrom_nil (matchHere_nil hmin)]
  induction hn : s.length using Nat.strong_induction_on generalizing s u with
  | _ n ih =>
    -- what follows a first piece ends in the same way
    have hrest : ∀ t, t <:+ s → t.length < n → t ≠ [] → t ≠ [b] →
        ∃ pieces last, scanFrom is 0 t = pieces ++ [last] ++ [.copy b] ∧
          (last = .copy g ∨ ∃ v m, v <:+ s ∧ matchHere is v = some m ∧ m.after = [b] ∧
            last = .hit m) := by
      intro t ht hlen hnil hone
      have hsuffix : ∃ u', t = u' ++ [g, b] := by
        obtain ⟨w, hw⟩ := ht
        rw [hs] at hw
        rcases List.append_eq_append_iff.mp hw with ⟨x, rfl, hx⟩ | ⟨x, rfl, hx⟩
        · exact ⟨x, hx⟩
        · rcases x with _ | ⟨d, x⟩
          · exact ⟨[], by simpa using hx.symm⟩
          · obtain ⟨rfl, htail⟩ := List.cons.inj hx
            rcases List.append_eq_singleton_iff.mp htail.symm with ⟨rfl, h⟩ | ⟨_, h⟩
            · exact absurd h hone
            · exact absurd h hnil
      obtain ⟨u', hu'⟩ := hsuffix
      obtain ⟨pieces, last, hscan, hpiece⟩ := ih t.length hlen hu'
        (fun v m hv => hend v m (hv.trans ht)) rfl
      refine ⟨pieces, last, hscan, hpiece.imp_right ?_⟩
      rintro ⟨v, m, hv, hm⟩
      exact ⟨v, m, hv.trans ht, hm⟩
    obtain ⟨c, t, rfl⟩ : ∃ c t, s = c :: t := List.exists_cons_of_ne_nil (by simp [hs])
    cases hm : matchHere is (c :: t) with
    | none =>
      have hnil : t ≠ [] := by
        rintro rfl
        have hlen := congrArg List.length hs
        simp at hlen
      rw [scanFrom_miss hm]
      by_cases hone : t = [b]
      · subst hone
        have hg : c = g := by
          have hlen := congrArg List.length hs
          obtain rfl : u = [] := List.length_eq_zero_iff.mp (by simpa using hlen)
          exact (List.cons.inj hs).1
        exact ⟨[], .copy c, by rw [hlast]; rfl, .inl (by rw [hg])⟩
      · obtain ⟨pieces, last, hscan, hpiece⟩ :=
          hrest t (List.suffix_cons c t) (by simp [← hn]) hnil hone
        exact ⟨.copy c :: pieces, last, by rw [hscan]; rfl, hpiece⟩
    | some m =>
      have hne := matchHere_nonempty hmin hm
      have happ := matchHere_append hm
      have hsuffix : m.after <:+ c :: t := ⟨m.whole, happ⟩
      have hlen : m.after.length < n := by
        have hpos := List.length_pos_iff.mpr hne
        have hsum := congrArg List.length happ
        rw [List.length_append, hn] at hsum
        omega
      rw [scanFrom_hit hm hne]
      by_cases hone : m.after = [b]
      · rw [hone, hlast]
        exact ⟨[], .hit m, rfl, .inr ⟨_, m, List.suffix_rfl, hm, hone, rfl⟩⟩
      · obtain ⟨pieces, last, hscan, hpiece⟩ :=
          hrest m.after hsuffix hlen (hend _ m List.suffix_rfl hm) hone
        exact ⟨.hit m :: pieces, last, by rw [hscan]; rfl, hpiece⟩

/-- A pattern that matches the empty text matches at the end of every text. -/
theorem scanFrom_last_hit {is : List Item} {m : Match} (hm : matchHere is [] = some m) {k : Nat}
    {s : Bytes} (hk : k ≤ s.length) : ∃ pieces, scanFrom is k s = pieces ++ [.hit m] := by
  induction s generalizing k with
  | nil =>
    obtain rfl : k = 0 := by simpa using hk
    exact ⟨[], by rw [scanFrom, hm]; rfl⟩
  | cons c s ih =>
    cases k with
    | succ k => exact ih (by simpa using hk)
    | zero =>
      rw [scanFrom]
      cases hhere : matchHere is (c :: s) with
      | none =>
        obtain ⟨pieces, hpieces⟩ := ih (Nat.zero_le _)
        exact ⟨.copy c :: pieces, by simp [hpieces]⟩
      | some m' =>
        cases hwhole : m'.whole with
        | nil =>
          obtain ⟨pieces, hpieces⟩ := ih (Nat.zero_le _)
          exact ⟨.hit m' :: .copy c :: pieces, by simp [hwhole, hpieces]⟩
        | cons b u =>
          have happ := congrArg List.length (matchHere_append hhere)
          simp only [hwhole, List.length_append, List.length_cons] at happ
          obtain ⟨pieces, hpieces⟩ := ih (k := u.length) (by omega)
          exact ⟨.hit m' :: pieces, by simp [hwhole, hpieces]⟩

end Lua
