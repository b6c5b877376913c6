import MoonWiki.Lua.Scan

/-! What a pass of `string.gsub` leaves alone, and what it adds. -/
namespace Lua

variable {s : Bytes} {is : List Item} {m : Match}

/-- The longest run of bytes of a kind at the head of a text. -/
theorem exists_run (p : Byte → Bool) (s : Bytes) :
    ∃ u v, s = u ++ v ∧ (∀ b ∈ u, p b = true) ∧ ∀ b t, v = b :: t → p b = false := by
  refine ⟨s.takeWhile p, s.dropWhile p, (List.takeWhile_append_dropWhile ..).symm,
    fun _ hb => List.mem_takeWhile_imp hb, fun b t ht => ?_⟩
  have hne : s.dropWhile p ≠ [] := by simp [ht]
  have hhead := List.head_dropWhile_not p hne
  simpa [ht] using hhead

/-- A text lies on one side of a byte that it does not have. -/
theorem infix_split {bs u v : Bytes} {x : Byte} (hx : x ∉ bs) (h : bs <:+: u ++ x :: v) :
    bs <:+: u ∨ bs <:+: v := by
  obtain ⟨a, c, h⟩ := h
  rcases List.append_eq_append_iff.mp h with ⟨y, rfl, _⟩ | ⟨y, hy, hv⟩
  · exact .inl ⟨a, y, rfl⟩
  · cases y with
    | nil => exact .inl ⟨a, [], by simpa using hy⟩
    | cons d y =>
      obtain ⟨rfl, rfl⟩ := List.cons.inj hv
      rcases List.append_eq_append_iff.mp hy with ⟨z, rfl, rfl⟩ | ⟨z, rfl, hz⟩
      · exact absurd (by simp) hx
      · cases z with
        | nil =>
          rw [List.nil_append] at hz
          exact absurd (by simp [← hz]) hx
        | cons e z =>
          obtain ⟨_, rfl⟩ := List.cons.inj hz
          exact .inr ⟨z, c, rfl⟩

/-- The first mark is at the same place. -/
theorem append_mark_inj {x : Byte} {u u' v v' : Bytes} (hu : x ∉ u) (hu' : x ∉ u')
    (h : u ++ x :: v = u' ++ x :: v') : u = u' ∧ v = v' := by
  rcases List.append_eq_append_iff.mp h with ⟨y, rfl, hy⟩ | ⟨y, rfl, hy⟩
  · cases y with
    | nil => exact ⟨by simp, (List.cons.inj hy).2⟩
    | cons d y =>
      obtain ⟨rfl, _⟩ := List.cons.inj hy
      exact absurd (by simp) hu'
  · cases y with
    | nil => exact ⟨by simp, (List.cons.inj hy).2.symm⟩
    | cons d y =>
      obtain ⟨rfl, _⟩ := List.cons.inj hy
      exact absurd (by simp) hu

/-! ### Bytes that a pattern takes -/

/-- Whether an item takes the byte. -/
def Item.takes (b : Byte) : Item → Bool
  | .single c _ => singleMatch b c
  | _ => false

/-- Items that take at least one byte. -/
def Quant.isNeeded : Quant → Bool
  | .one => true
  | .plus => true
  | _ => false

def Item.isNeeded : Item → Bool
  | .single _ q => q.isNeeded
  | _ => false

theorem expand_takes {α : Type} {p : Byte → Bool} {rest : Bytes → Option α} {q : Quant} {r : α}
    (h : expand p rest q s = some r) :
    ∃ u v, s = u ++ v ∧ (∀ b ∈ u, p b) ∧ (q.isNeeded → u ≠ []) ∧ rest v = some r := by
  cases q with
  | one =>
    cases s with
    | nil => cases h
    | cons b s =>
      rw [expand] at h
      split at h
      · exact ⟨[b], s, rfl, by simpa, by simp, h⟩
      · cases h
  | plus =>
    cases s with
    | nil => cases h
    | cons b s =>
      rw [expand] at h
      split at h
      · obtain ⟨u, v, rfl, hu, hv⟩ := maxExpand_sound h
        exact ⟨b :: u, v, rfl, by simp_all, by simp, hv⟩
      · cases h
  | opt =>
    obtain ⟨u, v, hs, hu, hv⟩ := expand_sound h
    exact ⟨u, v, hs, hu, by simp [Quant.isNeeded], hv⟩
  | star =>
    obtain ⟨u, v, hs, hu, hv⟩ := expand_sound h
    exact ⟨u, v, hs, hu, by simp [Quant.isNeeded], hv⟩
  | minus =>
    obtain ⟨u, v, hs, hu, hv⟩ := expand_sound h
    exact ⟨u, v, hs, hu, by simp [Quant.isNeeded], hv⟩

/-- A match is made of bytes that the items take; an item that is needed takes one of them. -/
theorem doMatch_takes {caps : List Capture} {r : Bytes} {c : List Capture}
    (h : doMatch is caps s = some (r, c)) :
    ∃ u, s = u ++ r ∧ (∀ b ∈ u, ∃ i ∈ is, i.takes b) ∧
      ∀ i ∈ is, i.isNeeded → ∃ b ∈ u, i.takes b := by
  induction is generalizing caps s with
  | nil =>
    simp only [doMatch, Option.some.injEq, Prod.mk.injEq] at h
    exact ⟨[], by simp [h.1], by simp, by simp⟩
  | cons i is ih =>
    have skip : ∀ {caps : List Capture}, doMatch is caps s = some (r, c) → i.isNeeded = false →
        ∃ u, s = u ++ r ∧ (∀ b ∈ u, ∃ j ∈ i :: is, j.takes b) ∧
          ∀ j ∈ i :: is, j.isNeeded → ∃ b ∈ u, j.takes b := by
      intro caps h hi
      obtain ⟨u, hs, hu, hneeded⟩ := ih h
      refine ⟨u, hs, fun b hb => ?_, fun j hj hj' => ?_⟩
      · obtain ⟨j, hj, htakes⟩ := hu b hb
        exact ⟨j, List.mem_cons_of_mem _ hj, htakes⟩
      · rcases List.mem_cons.mp hj with rfl | hj
        · rw [hi] at hj'
          cases hj'
        · exact hneeded j hj hj'
    cases i with
    | single cl q =>
      obtain ⟨u, v, rfl, hu, hne, hv⟩ := expand_takes h
      obtain ⟨w, rfl, hw, hneeded⟩ := ih hv
      refine ⟨u ++ w, by simp, fun b hb => ?_, fun j hj hj' => ?_⟩
      · rcases List.mem_append.mp hb with hb | hb
        · exact ⟨_, List.mem_cons_self .., hu b hb⟩
        · obtain ⟨j, hj, htakes⟩ := hw b hb
          exact ⟨j, List.mem_cons_of_mem _ hj, htakes⟩
      · rcases List.mem_cons.mp hj with rfl | hj
        · obtain ⟨b, u', rfl⟩ := List.exists_cons_of_ne_nil (hne hj')
          exact ⟨b, by simp, hu b (by simp)⟩
        · obtain ⟨b, hb, htakes⟩ := hneeded j hj hj'
          exact ⟨b, List.mem_append_right u hb, htakes⟩
    | startCapture => exact skip h rfl
    | endCapture => exact skip h rfl
    | eos =>
      rw [doMatch] at h
      split at h
      · exact skip h rfl
      · cases h

theorem matchHere_takes (h : matchHere is s = some m) :
    (∀ b ∈ m.whole, ∃ i ∈ is, i.takes b) ∧ ∀ i ∈ is, i.isNeeded → ∃ b ∈ m.whole, i.takes b := by
  obtain ⟨⟨r, c⟩, hd, rfl⟩ := Option.map_eq_some_iff.mp h
  obtain ⟨u, rfl, hu, hneeded⟩ := doMatch_takes hd
  simpa using ⟨hu, hneeded⟩

/-! ### Passes without a match -/

/-- The pattern has no match in the text. -/
def Pattern.Misses (p : Pattern) (s : Bytes) : Prop :=
  ∀ v, v <:+ s → (p.anchor = true → v = s) → matchHere p.items v = none

section
variable {p : Pattern}

theorem scan_misses (h : p.Misses s) : scan p s = s.map .copy := by
  obtain ⟨anchor, is⟩ := p
  cases anchor with
  | true => simp [scan, h s List.suffix_rfl fun _ => rfl]
  | false =>
    have hmiss : ∀ v, v <:+ s → matchHere is v = none := fun v hv => h v hv (by simp)
    rw [scan, if_neg (by simp)]
    clear h
    induction s with
    | nil => exact scanFrom_nil (hmiss [] List.suffix_rfl)
    | cons b s ih =>
      rw [scanFrom_miss (hmiss _ List.suffix_rfl),
        ih fun v hv => hmiss v (hv.trans (List.suffix_cons b s))]
      rfl

theorem replaceAll_misses (h : p.Misses s) (f : Match → Bytes) : replaceAll p f s = s := by
  rw [replaceAll, scan_misses h, List.flatMap_map]
  exact List.flatMap_singleton' s

theorem gfind_misses (h : p.Misses s) : gfind p s = [] := by
  rw [gfind, allMatches, scan_misses h, List.filterMap_map]
  simp [Function.comp_def, Piece.hit?]

theorem gsubState_misses {σ : Type} (h : p.Misses s) (f : List Bytes → σ → Bytes × σ) (st : σ) :
    gsubState p f s st = (s, st) := by
  have hcopy : ∀ (t out : Bytes), (t.map Piece.copy).foldl (gsubStep f) (out, st) =
      (out ++ t, st) := by
    intro t
    induction t with
    | nil => simp
    | cons b t ih =>
      intro out
      rw [List.map_cons, List.foldl_cons, gsubStep, ih, List.append_assoc]
      rfl
  rw [gsubState_eq, scan_misses h, hcopy, List.nil_append]

theorem exists_hit {is : List Item} (h : ¬ (⟨false, is⟩ : Pattern).Misses s) :
    ∃ m, Piece.hit m ∈ scanFrom is 0 s := by
  induction s with
  | nil =>
    cases hm : matchHere is [] with
    | some m => exact ⟨m, by simp [scanFrom, hm]⟩
    | none =>
      refine absurd (fun v hv _ => ?_) h
      rwa [List.suffix_nil.mp hv]
  | cons b s ih =>
    cases hm : matchHere is (b :: s) with
    | some m =>
      refine ⟨m, ?_⟩
      rw [scanFrom, hm]
      cases hw : m.whole <;> simp [hw]
    | none =>
      have htail : ¬ (⟨false, is⟩ : Pattern).Misses s := fun hmiss => h fun v hv hanchor => by
        rcases List.suffix_cons_iff.mp hv with rfl | hv
        · exact hm
        · exact hmiss v hv (by simp)
      obtain ⟨m, hhit⟩ := ih htail
      exact ⟨m, by rw [scanFrom_miss hm]; exact List.mem_cons_of_mem _ hhit⟩

/-- A pattern with a match is found. -/
theorem gfind_ne_nil {is : List Item} (h : ¬ (⟨false, is⟩ : Pattern).Misses s) :
    gfind ⟨false, is⟩ s ≠ [] := by
  obtain ⟨m, hm⟩ := exists_hit h
  have hmem : m.captures ∈ gfind ⟨false, is⟩ s :=
    List.mem_map_of_mem (List.mem_filterMap.mpr ⟨_, hm, rfl⟩)
  exact List.ne_nil_of_mem hmem

/-- What does not depend on the state is what `gsub` gives. -/
theorem gsubState_fst {σ : Type} {f : List Bytes → σ → Bytes × σ} {g : List Bytes → Bytes}
    (h : ∀ cs st, (f cs st).1 = g cs) (s : Bytes) (st : σ) :
    (gsubState p f s st).1 = gsub p g s := by
  have hfold : ∀ (pieces : List Piece) (out : Bytes × σ), (pieces.foldl (gsubStep f) out).1 =
      out.1 ++ pieces.flatMap (Piece.text fun m => g m.captures) := by
    intro pieces
    induction pieces with
    | nil => simp
    | cons piece pieces ih =>
      rintro ⟨out, st⟩
      rw [List.foldl_cons, ih, List.flatMap_cons]
      cases piece with
      | copy b => simp [gsubStep, Piece.text]
      | hit m => simp [gsubStep, Piece.text, h]
  rw [gsubState_eq, hfold, List.nil_append, gsub, replaceAll_pieces]

theorem found_iff_not_misses : found p s = true ↔ ¬ p.Misses s := by
  obtain ⟨anchor, is⟩ := p
  rw [found, find]
  cases anchor with
  | true =>
    rw [if_pos rfl, Option.isSome_map, Option.isSome_iff_ne_none]
    refine not_congr ⟨fun h v _ hv => ?_, fun h => h s List.suffix_rfl fun _ => rfl⟩
    rw [hv rfl]
    exact h
  | false =>
    rw [if_neg (by simp), findFrom_isSome]
    constructor
    · rintro ⟨u, v, rfl, hm⟩ h
      rw [h v (List.suffix_append u v) (by simp)] at hm
      cases hm
    · intro h
      by_contra hnone
      refine h fun v hv _ => ?_
      obtain ⟨u, hu⟩ := hv
      by_contra hm
      exact hnone ⟨u, v, hu.symm, Option.isSome_iff_ne_none.mpr hm⟩

end

/-! ### Patterns with a literal byte -/

/-- The item takes this byte only. -/
def Single.isByte (x : Byte) : Single → Bool
  | .lit b => b == x
  | .cls l => l == x && !isAlnum l
  | _ => false

theorem matchClass_literal {l : Byte} (hl : isAlnum l = false) (b : Byte) :
    matchClass b l = true ↔ b = l := by
  have hlower : toLower l = l := by
    refine toLower_of_not_upper (Bool.eq_false_iff.mpr fun h => ?_)
    rw [isAlnum_of_isUpper h] at hl
    cases hl
  have hne : ∀ x, isAlnum x = true → l ≠ x := fun x hx => (ne_of_test hx hl).symm
  have heq : matchClass b l = (l == b) := by
    simp [matchClass, hlower, hne (ch 'a') (by decide), hne (ch 'c') (by decide),
      hne (ch 'd') (by decide), hne (ch 'l') (by decide), hne (ch 'p') (by decide),
      hne (ch 's') (by decide), hne (ch 'u') (by decide), hne (ch 'w') (by decide),
      hne (ch 'x') (by decide), hne (ch 'z') (by decide)]
  rw [heq, beq_iff_eq, eq_comm]

theorem Single.isByte_match {c : Single} {x b : Byte} (h : c.isByte x) (hb : singleMatch b c) :
    b = x := by
  cases c with
  | lit y =>
    obtain rfl : y = x := by simpa [isByte] using h
    exact (by simpa [singleMatch] using hb : y = b).symm
  | cls l =>
    obtain ⟨rfl, hl⟩ : l = x ∧ isAlnum l = false := by simpa [isByte] using h
    exact (matchClass_literal hl b).mp hb
  | any => cases h
  | set negated items => cases h

/-- No match of the pattern does without this byte. -/
def Pattern.needs (p : Pattern) (x : Byte) : Bool :=
  p.items.any fun
    | .single c q => c.isByte x && q.isNeeded
    | _ => false

theorem Pattern.Misses.of_needs {p : Pattern} {x : Byte} (h : p.needs x = true) (hx : x ∉ s) :
    p.Misses s := by
  intro v hv _
  cases hm : matchHere p.items v with
  | none => rfl
  | some m =>
    obtain ⟨i, hi, hbyte⟩ := List.any_eq_true.mp h
    cases i with
    | single c q =>
      obtain ⟨hc, hq⟩ := Bool.and_eq_true_iff.mp hbyte
      obtain ⟨b, hb, htakes⟩ := (matchHere_takes hm).2 _ hi hq
      obtain rfl := Single.isByte_match hc htakes
      have hsub := matchHere_append hm
      exact absurd (hv.subset (hsub ▸ List.mem_append_left _ hb)) hx
    | startCapture => cases hbyte
    | endCapture => cases hbyte
    | eos => cases hbyte

/-- The item that takes the first byte of a match. -/
def headSingle : List Item → Option Single
  | .startCapture :: is => headSingle is
  | .endCapture :: is => headSingle is
  | .single c q :: _ => if q.isNeeded then some c else none
  | _ => none

theorem doMatch_head {c : Single} (h : headSingle is = some c)
    (hs : ∀ b t, s = b :: t → singleMatch b c = false) (caps : List Capture) :
    doMatch is caps s = none := by
  induction is generalizing caps with
  | nil => cases h
  | cons i is ih =>
    cases i with
    | startCapture => exact ih h _
    | endCapture => exact ih h _
    | single cl q =>
      rw [headSingle] at h
      split_ifs at h with hq
      obtain rfl := Option.some.inj h
      cases hd : doMatch (.single cl q :: is) caps s with
      | none => rfl
      | some r =>
        obtain ⟨u, v, hu, htakes, hne, _⟩ := expand_takes hd
        obtain ⟨b, u, rfl⟩ := List.exists_cons_of_ne_nil (hne hq)
        have hb := htakes b (by simp)
        rw [hs b (u ++ v) hu] at hb
        cases hb
    | eos => cases h

theorem matchHere_head {c : Single} (h : headSingle is = some c)
    (hs : ∀ b t, s = b :: t → singleMatch b c = false) : matchHere is s = none :=
  matchHere_eq_none (doMatch_head h hs [])

/-- An anchored pattern misses a text that begins in another way. -/
theorem Pattern.Misses.of_head {p : Pattern} (hanchor : p.anchor = true) {c : Single}
    (h : headSingle p.items = some c) (hs : ∀ b t, s = b :: t → singleMatch b c = false) :
    p.Misses s := by
  intro v _ hv
  obtain rfl := hv hanchor
  exact matchHere_head h hs

/-- Bytes that no match begins with are copied. -/
theorem scanFrom_run {c : Single} (h : headSingle is = some c) {u : Bytes}
    (hu : ∀ b ∈ u, singleMatch b c = false) (v : Bytes) :
    scanFrom is 0 (u ++ v) = u.map .copy ++ scanFrom is 0 v := by
  induction u with
  | nil => rfl
  | cons b u ih =>
    have hmiss : matchHere is (b :: (u ++ v)) = none :=
      matchHere_head h fun d t hd => by
        obtain ⟨rfl, _⟩ := List.cons.inj hd
        exact hu _ (List.mem_cons_self ..)
    rw [List.cons_append, scanFrom_miss hmiss, ih fun d hd => hu d (List.mem_cons_of_mem _ hd)]
    rfl

theorem replaceAll_run {c : Single} (h : headSingle is = some c) {u : Bytes}
    (hu : ∀ b ∈ u, singleMatch b c = false) (f : Match → Bytes) (v : Bytes) :
    replaceAll ⟨false, is⟩ f (u ++ v) = u ++ replaceAll ⟨false, is⟩ f v := by
  have hscan := scanFrom_run h hu v
  simp only [replaceAll, scan, Bool.false_eq_true, ↓reduceIte, hscan, List.flatMap_append,
    List.flatMap_map]
  rw [List.flatMap_singleton']

/-- A literal pattern needs its text. -/
theorem Pattern.Misses.of_absent {bs : Bytes} (h : ¬ bs <:+: s) :
    (⟨false, literalItems bs⟩ : Pattern).Misses s := by
  intro v hv _
  refine matchHere_eq_none ?_
  have hnone : doMatch (literalItems bs ++ []) [] v = none :=
    doMatch_literal_none fun hp => h (hp.isInfix.trans hv.isInfix)
  rwa [List.append_nil] at hnone

/-- The items that take the first two bytes of a match. -/
def headPair : List Item → Option (Single × Single)
  | .startCapture :: is => headPair is
  | .endCapture :: is => headPair is
  | .single c .one :: is => (headSingle is).map (c, ·)
  | _ => none

theorem matchHere_pair {c d : Single} (h : headPair is = some (c, d))
    (hs : ∀ b e t, s = b :: e :: t → singleMatch b c → singleMatch e d = false) :
    matchHere is s = none := by
  refine matchHere_eq_none ?_
  generalize ([] : List Capture) = caps
  induction is generalizing caps with
  | nil => cases h
  | cons i is ih =>
    cases i with
    | startCapture => exact ih h _
    | endCapture => exact ih h _
    | single cl q =>
      cases q with
      | one =>
        obtain ⟨e, he, heq⟩ := Option.map_eq_some_iff.mp h
        obtain ⟨rfl, rfl⟩ := Prod.mk.inj heq
        cases s with
        | nil => rfl
        | cons b s =>
          rw [doMatch, expand]
          split_ifs with hb
          · refine doMatch_head he (fun e t ht => ?_) caps
            subst ht
            exact hs b e t rfl hb
          · rfl
      | opt => cases h
      | star => cases h
      | plus => cases h
      | minus => cases h
    | eos => cases h

/-- A text in which no two bytes can begin a match. -/
theorem Pattern.Misses.of_pair {p : Pattern} {c d : Single} (h : headPair p.items = some (c, d))
    (hs : ∀ u b e t, s = u ++ b :: e :: t → singleMatch b c → singleMatch e d = false) :
    p.Misses s := by
  rintro v ⟨u, rfl⟩ _
  exact matchHere_pair h fun b e t hv => hs u b e t (by rw [hv])

/-- A text in which no two bytes can begin a match, and the last one cannot either, is copied. -/
theorem replaceAll_lead {c d : Single} (h : headPair is = some (c, d)) {u : Bytes}
    (hu : u.IsChain fun b e => singleMatch b c = true → singleMatch e d = false)
    (hlast : ∀ b ∈ u.getLast?, singleMatch b c = false) (f : Match → Bytes) (v : Bytes) :
    replaceAll ⟨false, is⟩ f (u ++ v) = u ++ replaceAll ⟨false, is⟩ f v := by
  induction u with
  | nil => rfl
  | cons b u ih =>
    have hmiss : matchHere is (b :: (u ++ v)) = none := by
      refine matchHere_pair h fun x e t heq hx => ?_
      obtain ⟨rfl, hrest⟩ := List.cons.inj heq
      cases u with
      | nil =>
        rw [hlast b rfl] at hx
        cases hx
      | cons y u =>
        obtain ⟨rfl, _⟩ := List.cons.inj hrest
        exact (List.isChain_cons_cons.mp hu).1 hx
    rw [List.cons_append, replaceAll_miss hmiss, ih hu.tail fun d hd => hlast d ?_,
      List.cons_append]
    cases u with
    | nil => cases hd
    | cons y u => rwa [List.getLast?_cons_cons]

theorem maxExpand_mono {α β : Type} {p : Byte → Bool} {f : Bytes → Option α}
    {g : Bytes → Option β} (h : ∀ v, g v = none → f v = none) (hs : maxExpand p g s = none) :
    maxExpand p f s = none := by
  induction s with
  | nil => exact h [] hs
  | cons b s ih =>
    rw [maxExpand] at hs ⊢
    split_ifs at hs ⊢ with hb
    · split at hs
      · cases hs
      · rename_i hrest
        rw [ih hrest]
        exact h _ hs
    · exact h _ hs

theorem minExpand_mono {α β : Type} {p : Byte → Bool} {f : Bytes → Option α}
    {g : Bytes → Option β} (h : ∀ v, g v = none → f v = none) (hs : minExpand p g s = none) :
    minExpand p f s = none := by
  induction s with
  | nil => exact h [] hs
  | cons b s ih =>
    rw [minExpand] at hs ⊢
    split at hs
    · cases hs
    · rename_i hg
      rw [h _ hg]
      dsimp only
      split_ifs at hs ⊢ with hb
      · exact ih hs
      · rfl

theorem expand_mono {α β : Type} {p : Byte → Bool} {f : Bytes → Option α} {g : Bytes → Option β}
    {q : Quant} (h : ∀ v, g v = none → f v = none) (hs : expand p g q s = none) :
    expand p f q s = none := by
  cases q with
  | one =>
    cases s with
    | nil => rfl
    | cons b s =>
      rw [expand] at hs ⊢
      split_ifs at hs ⊢ with hb
      · exact h s hs
      · rfl
  | opt =>
    cases s with
    | nil => exact h [] hs
    | cons b s =>
      rw [expand] at hs ⊢
      split_ifs at hs ⊢ with hb
      · split at hs
        · cases hs
        · rename_i hg
          rw [h s hg]
          exact h _ hs
      · exact h _ hs
  | star => exact maxExpand_mono h hs
  | plus =>
    cases s with
    | nil => rfl
    | cons b s =>
      rw [expand] at hs ⊢
      split_ifs at hs ⊢ with hb
      · exact maxExpand_mono h hs
      · rfl
  | minus => exact minExpand_mono h hs

theorem doMatch_extend {js : List Item} {caps : List Capture} (h : doMatch is caps s = none) :
    doMatch (is ++ js) caps s = none := by
  induction is generalizing caps s with
  | nil => cases h
  | cons i is ih =>
    cases i with
    | single c q => exact expand_mono (fun v hv => ih hv) h
    | startCapture => exact ih h
    | endCapture => exact ih h
    | eos =>
      rw [List.cons_append, doMatch]
      rw [doMatch] at h
      split_ifs at h ⊢ with hs
      · exact ih h
      · rfl

/-- A longer pattern has no match where the shorter one has none. -/
theorem Pattern.Misses.extend {p : Pattern} (h : p.Misses s) (js : List Item) :
    (⟨p.anchor, p.items ++ js⟩ : Pattern).Misses s := by
  intro v hv hanchor
  have hnone := h v hv hanchor
  rw [matchHere, Option.map_eq_none_iff] at hnone
  exact matchHere_eq_none (doMatch_extend hnone)

/-! ### Patterns that match at the end -/

/-- A pattern that only matches texts of one length is replaced at the end. -/
theorem replaceAll_tail {u v : Bytes} (hne : v ≠ []) (f : Match → Bytes)
    (hlen : ∀ w m', matchHere is w = some m' → w.length = v.length)
    (hm : matchHere is v = some m) (hafter : m.after = []) :
    replaceAll ⟨false, is⟩ f (u ++ v) = u ++ f m := by
  have hnil : matchHere is [] = none := by
    cases h : matchHere is [] with
    | none => rfl
    | some m' => exact absurd (List.length_eq_zero_iff.mp (hlen [] m' h).symm) hne
  induction u with
  | nil =>
    have hwhole : m.whole ≠ [] := by
      have happ := matchHere_append hm
      rw [hafter, List.append_nil] at happ
      rwa [happ]
    rw [List.nil_append, replaceAll_hit hm hwhole, hafter, replaceAll_nil hnil, List.append_nil]
    rfl
  | cons b u ih =>
    have hmiss : matchHere is (b :: (u ++ v)) = none := by
      cases h : matchHere is (b :: (u ++ v)) with
      | none => rfl
      | some m' =>
        have heq := hlen _ m' h
        simp only [List.length_cons, List.length_append] at heq
        omega
    rw [List.cons_append, replaceAll_miss hmiss, ih]
    rfl

theorem matchHere_literal_eos (bs v : Bytes) :
    matchHere (literalItems bs ++ [.eos]) v = if v = bs then some ⟨bs, [bs], []⟩ else none := by
  by_cases hp : bs <+: v
  · obtain ⟨t, rfl⟩ := hp
    have hd : doMatch (literalItems bs ++ [.eos]) [] (bs ++ t) = doMatch [.eos] [] t :=
      doMatch_literal bs [.eos] [] t
    by_cases ht : t = []
    · subst ht
      rw [if_pos (List.append_nil bs), matchHere_of_doMatch (hd.trans rfl)]
      rfl
    · rw [if_neg (by simpa using ht), matchHere_eq_none (by simpa [doMatch, ht] using hd)]
  · have hne : v ≠ bs := fun h => hp (h ▸ List.prefix_rfl)
    rw [if_neg hne, matchHere_eq_none (doMatch_literal_none hp)]

theorem matchHere_literal (bs s : Bytes) :
    matchHere (literalItems bs) s =
      if bs <+: s then some ⟨bs, [bs], s.drop bs.length⟩ else none := by
  split_ifs with hp
  · obtain ⟨t, rfl⟩ := hp
    have hd : doMatch (literalItems bs ++ []) [] (bs ++ t) = some (t, []) :=
      doMatch_literal bs [] [] t
    rw [List.append_nil] at hd
    rw [matchHere_of_doMatch hd, List.drop_left]
    rfl
  · have hd : doMatch (literalItems bs ++ []) [] s = none := doMatch_literal_none hp
    rw [List.append_nil] at hd
    exact matchHere_eq_none hd

/-- A literal text does not reach over a byte that it does not have. -/
theorem gsubStr_literal_split {bs : Bytes} (hne : bs ≠ []) {x : Byte} (hx : x ∉ bs)
    {repl : Bytes} (hrepl : ch '%' ∉ repl) (u v : Bytes) :
    gsubStr ⟨false, literalItems bs⟩ repl (u ++ x :: v) =
      gsubStr ⟨false, literalItems bs⟩ repl u ++
        x :: gsubStr ⟨false, literalItems bs⟩ repl v := by
  have hconst : (fun m => addS m repl) = fun _ => repl := funext fun m => addS_plain m hrepl
  have hlong : ∀ w : Bytes, bs <+: w ++ x :: v → bs <+: w := by
    rintro w ⟨t, ht⟩
    rcases List.append_eq_append_iff.mp ht with ⟨y, rfl, _⟩ | ⟨y, rfl, hy⟩
    · exact ⟨y, rfl⟩
    · cases y with
      | nil => simp
      | cons d y =>
        obtain ⟨rfl, _⟩ := List.cons.inj hy
        exact absurd (by simp) hx
  have hempty : matchHere (literalItems bs) [] = none := by
    rw [matchHere_literal, if_neg (by simpa using hne)]
  simp only [gsubStr, hconst]
  induction hn : u.length using Nat.strong_induction_on generalizing u with
  | _ n ih =>
    cases u with
    | nil =>
      have hno : ¬ bs <+: x :: v := fun hp => hne (List.prefix_nil.mp (hlong [] hp))
      have hmiss : matchHere (literalItems bs) (x :: v) = none := by
        rw [matchHere_literal, if_neg hno]
      rw [List.nil_append, replaceAll_miss hmiss, replaceAll_nil hempty]
      rfl
    | cons b u =>
      by_cases hp : bs <+: b :: u
      · obtain ⟨t, ht⟩ := hp
        have hhit : matchHere (literalItems bs) (bs ++ t) = some ⟨bs, [bs], t⟩ := by
          rw [matchHere_literal, if_pos (List.prefix_append bs t), List.drop_left]
        have hhit' : matchHere (literalItems bs) (bs ++ (t ++ x :: v)) =
            some ⟨bs, [bs], t ++ x :: v⟩ := by
          rw [matchHere_literal, if_pos (List.prefix_append bs _), List.drop_left]
        have hlen : t.length < n := by
          have hpos := List.length_pos_iff.mpr hne
          have hsum := congrArg List.length ht
          rw [List.length_append, hn] at hsum
          omega
        rw [← ht, List.append_assoc, replaceAll_hit hhit' hne, replaceAll_hit hhit hne,
          ih t.length hlen t rfl, List.append_assoc]
      · have hno : ¬ bs <+: b :: (u ++ x :: v) := fun h => hp (hlong (b :: u) h)
        have hmiss : matchHere (literalItems bs) (b :: u) = none := by
          rw [matchHere_literal, if_neg hp]
        have hmiss' : matchHere (literalItems bs) (b :: (u ++ x :: v)) = none := by
          rw [matchHere_literal, if_neg hno]
        rw [List.cons_append, replaceAll_miss hmiss', replaceAll_miss hmiss,
          ih u.length (by simp [← hn]) u rfl]
        rfl

/-- The items of `(c)` and a literal text at the end. -/
def capturedTail (c : Single) (bs : Bytes) : List Item :=
  .startCapture :: .single c .one :: .endCapture :: (literalItems bs ++ [.eos])

theorem matchHere_capturedTail (c : Single) (bs : Bytes) (b : Byte) (t : Bytes) :
    matchHere (capturedTail c bs) (b :: t) =
      if singleMatch b c ∧ t = bs then some ⟨b :: bs, [[b]], []⟩ else none := by
  by_cases hb : singleMatch b c = true
  · have hd : doMatch (capturedTail c bs) [] (b :: t) =
        doMatch (literalItems bs ++ [.eos]) [.done [b]] t := by
      rw [capturedTail, doMatch, doMatch_one hb]
      exact doMatch_endCapture [b] t
    by_cases hp : bs <+: t
    · obtain ⟨r, rfl⟩ := hp
      rw [doMatch_literal] at hd
      by_cases hr : r = []
      · subst hr
        rw [if_pos ⟨hb, List.append_nil bs⟩, ← List.cons_append,
          matchHere_of_doMatch (hd.trans rfl)]
        rfl
      · rw [if_neg (by simp [hr]), matchHere_eq_none (by simpa [doMatch, hr] using hd)]
    · have hne : ¬ (singleMatch b c ∧ t = bs) := fun h => hp (h.2 ▸ List.prefix_rfl)
      rw [if_neg hne, matchHere_eq_none (hd.trans (doMatch_literal_none hp))]
  · rw [if_neg fun h => hb h.1]
    exact matchHere_eq_none (by simp [capturedTail, doMatch, expand, hb])

/-- The replacement `%1`. -/
theorem addS_capture (m : Match) : addS m (str "%1") = m.captures.getD 0 [] := by
  rw [show str "%1" = [37, 49] by decide]
  simp [addS, ch, isDigit]

section
variable {bs repl : Bytes}

theorem gsubStr_suffix (hne : bs ≠ []) (hrepl : ch '%' ∉ repl) (u : Bytes) :
    gsubStr ⟨false, literalItems bs ++ [.eos]⟩ repl (u ++ bs) = u ++ repl := by
  have hlen : ∀ w m', matchHere (literalItems bs ++ [.eos]) w = some m' →
      w.length = bs.length := by
    intro w m' h
    rw [matchHere_literal_eos] at h
    split_ifs at h with hw
    rw [hw]
  have hm := matchHere_literal_eos bs bs
  rw [if_pos rfl] at hm
  rw [gsubStr, replaceAll_tail hne _ hlen hm rfl, addS_plain _ hrepl]

theorem gsubStr_no_suffix (h : ¬ bs <:+ s) :
    gsubStr ⟨false, literalItems bs ++ [.eos]⟩ repl s = s := by
  refine replaceAll_misses (fun v hv _ => ?_) _
  have hne : v ≠ bs := fun heq => h (heq ▸ hv)
  exact (matchHere_literal_eos bs v).trans (if_neg hne)

theorem gsubStr_capturedTail {c : Single} {b : Byte} (hb : singleMatch b c) (u : Bytes) :
    gsubStr ⟨false, capturedTail c bs⟩ (str "%1") (u ++ b :: bs) = u ++ [b] := by
  have hlen : ∀ w m', matchHere (capturedTail c bs) w = some m' →
      w.length = (b :: bs).length := by
    intro w m' h
    cases w with
    | nil => simp [matchHere, capturedTail, doMatch, expand] at h
    | cons d w =>
      rw [matchHere_capturedTail] at h
      split_ifs at h with hw
      rw [hw.2, List.length_cons, List.length_cons]
  have hm := matchHere_capturedTail c bs b bs
  rw [if_pos ⟨hb, rfl⟩] at hm
  rw [gsubStr, replaceAll_tail (by simp) _ hlen hm rfl, addS_capture]
  rfl

theorem gsubStr_no_capturedTail {c : Single} (h : ∀ b, singleMatch b c → ¬ b :: bs <:+ s) :
    gsubStr ⟨false, capturedTail c bs⟩ repl s = s := by
  refine replaceAll_misses (fun v hv _ => ?_) _
  cases v with
  | nil => rfl
  | cons b v =>
    refine (matchHere_capturedTail c bs b v).trans (if_neg ?_)
    rintro ⟨hb, rfl⟩
    exact h b hb hv

end

/-! ### What a pass adds -/

/-- The bytes of the subject that a piece stands for. -/
def Piece.source : Piece → Bytes
  | .copy b => [b]
  | .hit m => m.whole

theorem scanFrom_source (is : List Item) (k : Nat) (s : Bytes) :
    (scanFrom is k s).flatMap Piece.source = s.drop k := by
  induction s generalizing k with
  | nil =>
    cases k with
    | succ k => rfl
    | zero =>
      rw [scanFrom]
      cases hm : matchHere is [] with
      | none => rfl
      | some m =>
        have happ := List.append_eq_nil_iff.mp (matchHere_append hm)
        simp [Piece.source, happ.1]
  | cons c s ih =>
    cases k with
    | succ k => exact ih k
    | zero =>
      rw [scanFrom]
      cases hm : matchHere is (c :: s) with
      | none => simp [Piece.source, ih]
      | some m =>
        have happ := matchHere_append hm
        cases hw : m.whole with
        | nil => simp [Piece.source, ih, hw]
        | cons b u =>
          rw [hw, List.cons_append] at happ
          obtain ⟨rfl, rfl⟩ := List.cons.inj happ
          simp [Piece.source, ih, hw]

/-- The pieces of a scan make up the subject. -/
theorem scan_source (p : Pattern) (s : Bytes) : (scan p s).flatMap Piece.source = s := by
  have hcopy : ∀ t : Bytes, (t.map Piece.copy).flatMap Piece.source = t := by
    intro t
    rw [List.flatMap_map]
    exact List.flatMap_singleton' t
  rw [scan]
  split_ifs
  · cases hm : matchHere p.items s with
    | none => exact hcopy s
    | some m => exact (congrArg (m.whole ++ ·) (hcopy m.after)).trans (matchHere_append hm)
  · exact scanFrom_source p.items 0 s

theorem scan_hit {p : Pattern} (h : Piece.hit m ∈ scan p s) :
    ∃ v, v <:+ s ∧ matchHere p.items v = some m := by
  rw [scan] at h
  split_ifs at h
  · cases hm : matchHere p.items s with
    | none => simp [hm] at h
    | some m' =>
      obtain rfl : m = m' := by simpa [hm] using h
      exact ⟨s, List.suffix_rfl, hm⟩
  · rcases scanFrom_mem h with ⟨b, _, hb⟩ | ⟨v, m', hv, hm, hb⟩
    · cases hb
    · obtain rfl := Piece.hit.inj hb
      exact ⟨v, hv, hm⟩

/-- Matches that are put back leave the text as it was. -/
theorem replaceAll_same {p : Pattern} {f : Match → Bytes}
    (hf : ∀ m, Piece.hit m ∈ scan p s → f m = m.whole) : replaceAll p f s = s := by
  have hpieces : ∀ piece ∈ scan p s, (fun
      | .copy b => [b]
      | .hit m => f m : Piece → Bytes) piece = piece.source := by
    intro piece hpiece
    cases piece with
    | copy b => rfl
    | hit m => exact hf m hpiece
  calc replaceAll p f s = (scan p s).flatMap Piece.source := List.flatMap_congr hpieces
    _ = s := scan_source p s

/-- When no replacement has fewer of a byte than its match, and one has more, so has the text. -/
theorem replaceAll_count_lt {p : Pattern} {f : Match → Bytes} (x : Byte)
    (hf : ∀ v m, v <:+ s → matchHere p.items v = some m → m.whole.count x ≤ (f m).count x)
    (hm : Piece.hit m ∈ scan p s) (hlt : m.whole.count x < (f m).count x) :
    s.count x < (replaceAll p f s).count x := by
  have hle : ∀ piece ∈ scan p s, piece.source.count x ≤ ((fun
      | .copy b => [b]
      | .hit m => f m : Piece → Bytes) piece).count x := by
    intro piece hpiece
    cases piece with
    | copy b => exact Nat.le_refl _
    | hit m =>
      obtain ⟨v, hv, hmatch⟩ := scan_hit hpiece
      exact hf v m hv hmatch
  have hsum := List.sum_lt_sum _ _ hle ⟨_, hm, hlt⟩
  calc s.count x = ((scan p s).flatMap Piece.source).count x := by rw [scan_source]
    _ < (replaceAll p f s).count x := by
      rw [replaceAll, List.count_flatMap, List.count_flatMap]
      exact hsum

/-- When each replacement has so many more of a byte than its match, so has the text for each
match. -/
theorem replaceAll_count {p : Pattern} {f : Match → Bytes} (x : Byte) (k : Nat)
    (hf : ∀ v m, v <:+ s → matchHere p.items v = some m →
      m.whole.count x + k ≤ (f m).count x) :
    s.count x + k * (gfind p s).length ≤ (replaceAll p f s).count x := by
  have hpieces : ∀ pieces : List Piece,
      (∀ m, Piece.hit m ∈ pieces → m.whole.count x + k ≤ (f m).count x) →
      (pieces.flatMap Piece.source).count x + k * (pieces.filterMap Piece.hit?).length ≤
        (pieces.flatMap fun
          | .copy b => [b]
          | .hit m => f m).count x := by
    intro pieces
    induction pieces with
    | nil => simp
    | cons piece pieces ih =>
      intro h
      have htail := ih fun m hm => h m (List.mem_cons_of_mem _ hm)
      cases piece with
      | copy b =>
        simp only [List.flatMap_cons, List.filterMap_cons, Piece.hit?, List.count_append,
          Piece.source]
        omega
      | hit m =>
        have hm := h m (List.mem_cons_self ..)
        simp only [List.flatMap_cons, List.filterMap_cons, Piece.hit?, List.count_append,
          Piece.source, List.length_cons, Nat.mul_succ]
        omega
  have hscan := hpieces (scan p s) fun m hm => by
    obtain ⟨v, hv, hmatch⟩ := scan_hit hm
    exact hf v m hv hmatch
  rw [scan_source] at hscan
  rw [gfind, allMatches, List.length_map]
  exact hscan

/-- Where a literal text is, its replacement is put. -/
theorem gsubStr_literal_mem {bs repl : Bytes} {x : Byte} (hrepl : ch '%' ∉ repl) (hx : x ∈ repl)
    (h : bs <:+: s) : x ∈ gsubStr ⟨false, literalItems bs⟩ repl s := by
  have hhit : ¬ (⟨false, literalItems bs⟩ : Pattern).Misses s := by
    obtain ⟨u, v, rfl⟩ := h
    intro hmiss
    have hnone := hmiss (bs ++ v) ⟨u, by simp⟩ (by simp)
    rw [matchHere_literal, if_pos (List.prefix_append bs v)] at hnone
    cases hnone
  obtain ⟨m, hm⟩ := exists_hit hhit
  have hadd : x ∈ addS m repl := by rwa [addS_plain m hrepl]
  exact List.mem_flatMap.mpr ⟨_, hm, hadd⟩

/-! ### Bytes that a pass keeps, and those that it can add -/

/-- The bytes of a replacement string that stand for themselves. -/
def plainBytes (repl : Bytes) : Bytes := addS ⟨[], [], []⟩ repl

/-- The other bytes come from the match. -/
theorem addS_mem {repl : Bytes} {b : Byte} (h : b ∈ addS m repl) :
    b ∈ m.whole ∨ (∃ t ∈ m.captures, b ∈ t) ∨ b ∈ plainBytes repl := by
  rw [plainBytes]
  fun_induction addS m repl with
  | case1 => cases h
  | case2 => cases h
  | case3 c hc => exact .inr (.inr (by rwa [addS, if_neg hc]))
  | case4 d t ih =>
    rw [addS, if_pos rfl]
    rcases List.mem_append.mp h with h | h
    · split_ifs at h ⊢ with hdigit hzero
      · exact .inl h
      · refine .inr (.inl ?_)
        by_cases hi : d.toNat - 49 < m.captures.length
        · rw [List.getD_eq_getElem _ _ hi] at h
          exact ⟨_, List.getElem_mem hi, h⟩
        · rw [List.getD_eq_default _ _ (Nat.le_of_not_lt hi)] at h
          cases h
      · exact .inr (.inr (List.mem_append_left _ h))
    · rcases ih h with h | h | h
      · exact .inl h
      · exact .inr (.inl h)
      · exact .inr (.inr (List.mem_append_right _ h))
  | case5 c d t hc ih =>
    rw [addS, if_neg hc]
    rcases List.mem_cons.mp h with rfl | h
    · exact .inr (.inr (List.mem_cons_self ..))
    · rcases ih h with h | h | h
      · exact .inl h
      · exact .inr (.inl h)
      · exact .inr (.inr (List.mem_cons_of_mem _ h))

section
variable {p : Pattern} {repl : Bytes}

theorem gsubStr_bytes {P : Byte → Prop} (hp : p.anchor = false) (hrepl : ∀ b ∈ plainBytes repl, P b)
    (hs : ∀ b ∈ s, P b) : ∀ b ∈ gsubStr p repl s, P b := by
  obtain ⟨anchor, is⟩ := p
  obtain rfl := hp
  refine replaceAll_bytes hs fun m hwhole hcaps b hb => ?_
  rcases addS_mem hb with hb | ⟨t, ht, hb⟩ | hb
  · exact hwhole b hb
  · exact hcaps t ht b hb
  · exact hrepl b hb

/-- A byte that no match begins with stays the first one. -/
theorem gsubStr_head (hp : p.anchor = false) {c : Single} (h : headSingle p.items = some c)
    {b : Byte} (hb : singleMatch b c = false) (t : Bytes) :
    gsubStr p repl (b :: t) = b :: gsubStr p repl t := by
  obtain ⟨anchor, is⟩ := p
  obtain rfl := hp
  exact replaceAll_run (u := [b]) h (by simpa using hb) _ t

/-- A byte that no item takes is in no match. -/
theorem matchHere_count_zero {x : Byte} (hp : ∀ i ∈ p.items, i.takes x = false) {v : Bytes}
    (hm : matchHere p.items v = some m) : m.whole.count x = 0 :=
  List.count_eq_zero.mpr fun hmem => by
    obtain ⟨i, hi, htakes⟩ := (matchHere_takes hm).1 x hmem
    rw [hp i hi] at htakes
    cases htakes

/-- It stays in the text. -/
theorem replaceAll_count_le {x : Byte} (hp : ∀ i ∈ p.items, i.takes x = false)
    (f : Match → Bytes) (s : Bytes) : s.count x ≤ (replaceAll p f s).count x := by
  have hwhole : ∀ v m, v <:+ s → matchHere p.items v = some m →
      m.whole.count x + 0 ≤ (f m).count x := by
    intro v m _ hm
    rw [matchHere_count_zero hp hm]
    exact Nat.zero_le _
  have hcount := replaceAll_count x 0 hwhole
  omega

theorem replaceAll_keeps {x : Byte} (hp : ∀ i ∈ p.items, i.takes x = false) (f : Match → Bytes)
    (hx : x ∈ s) : x ∈ replaceAll p f s :=
  List.count_pos_iff.mp (Nat.lt_of_lt_of_le (List.count_pos_iff.mpr hx)
    (replaceAll_count_le hp f s))

/-- A byte of the text was in it or has been put for a match. -/
theorem mem_replaceAll {x : Byte} {f : Match → Bytes} (h : x ∈ replaceAll p f s) :
    x ∈ s ∨ ∃ v m, v <:+ s ∧ matchHere p.items v = some m ∧ x ∈ f m := by
  obtain ⟨piece, hpiece, hx⟩ := List.mem_flatMap.mp h
  cases piece with
  | copy b =>
    obtain rfl := List.mem_singleton.mp hx
    refine .inl ?_
    rw [← scan_source p s]
    exact List.mem_flatMap.mpr ⟨_, hpiece, List.mem_singleton_self _⟩
  | hit m =>
    obtain ⟨v, hv, hm⟩ := scan_hit hpiece
    exact .inr ⟨v, m, hv, hm, hx⟩

end

/-! ### The first byte -/

def StartsIn (P : Byte → Prop) (s : Bytes) : Prop := ∃ b t, s = b :: t ∧ P b

theorem StartsIn.append {P : Byte → Prop} (h : StartsIn P s) (t : Bytes) :
    StartsIn P (s ++ t) := by
  obtain ⟨b, u, rfl, hb⟩ := h
  exact ⟨b, u ++ t, rfl, hb⟩

theorem replaceAll_startsIn {P : Byte → Prop} {f : Match → Bytes} (hmin : 0 < minLength is)
    (hs : StartsIn P s) (hf : ∀ m, matchHere is s = some m → StartsIn P (f m)) :
    StartsIn P (replaceAll ⟨false, is⟩ f s) := by
  cases hm : matchHere is s with
  | some m =>
    rw [replaceAll_hit hm (matchHere_nonempty hmin hm)]
    exact (hf m hm).append _
  | none =>
    obtain ⟨b, t, rfl, hb⟩ := hs
    rw [replaceAll_miss hm]
    exact ⟨b, _, rfl, hb⟩

/-- A replacement string that begins with a byte of the kind. -/
theorem gsubStr_startsIn {P : Byte → Prop} {p : Pattern} (hp : p.anchor = false)
    (hmin : 0 < minLength p.items) {b : Byte} (hb : b ≠ ch '%' ∧ P b) (hs : StartsIn P s)
    (repl : Bytes) : StartsIn P (gsubStr p (b :: repl) s) := by
  obtain ⟨anchor, is⟩ := p
  obtain rfl := hp
  refine replaceAll_startsIn hmin hs fun m _ => ?_
  cases repl with
  | nil => exact ⟨b, [], by rw [addS, if_neg hb.1], hb.2⟩
  | cons d repl => exact ⟨b, addS m (d :: repl), by rw [addS, if_neg hb.1], hb.2⟩

end Lua
