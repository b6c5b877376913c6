import MoonWiki.Lua.Passes

/-! Patterns of captures and literal texts, and what their matches are made of. -/
namespace Lua

variable {s : Bytes} {is : List Item} {m : Match}

/-! ### The parts of a match -/

/-- The item takes bytes and does nothing else. -/
def Item.isSingle : Item → Bool
  | .single _ _ => true
  | _ => false

section
variable {js : List Item} {caps : List Capture} {r : Bytes × List Capture} {bs : Bytes}

theorem doMatch_singles_sound (his : ∀ i ∈ is, i.isSingle = true)
    (h : doMatch (is ++ js) caps s = some r) :
    ∃ u v, s = u ++ v ∧ (∀ b ∈ u, ∃ i ∈ is, i.takes b) ∧ doMatch js caps v = some r := by
  induction is generalizing s with
  | nil => exact ⟨[], s, rfl, by simp, h⟩
  | cons i is ih =>
    cases i with
    | single c q =>
      obtain ⟨u, v, rfl, hu, hv⟩ := expand_sound h
      obtain ⟨w, x, rfl, hw, hx⟩ := ih (fun j hj => his j (List.mem_cons_of_mem _ hj)) hv
      refine ⟨u ++ w, x, by simp, fun b hb => ?_, hx⟩
      rcases List.mem_append.mp hb with hb | hb
      · exact ⟨_, List.mem_cons_self .., hu b hb⟩
      · obtain ⟨j, hj, htakes⟩ := hw b hb
        exact ⟨j, List.mem_cons_of_mem _ hj, htakes⟩
    | startCapture => exact absurd (his _ (List.mem_cons_self ..)) (by decide)
    | endCapture => exact absurd (his _ (List.mem_cons_self ..)) (by decide)
    | eos => exact absurd (his _ (List.mem_cons_self ..)) (by decide)

/-- What is captured, and the rest of the match after it. -/
theorem doMatch_capture_sound (his : ∀ i ∈ is, i.isSingle = true)
    (h : doMatch (.startCapture :: (is ++ .endCapture :: js)) caps s = some r) :
    ∃ u v, s = u ++ v ∧ (∀ b ∈ u, ∃ i ∈ is, i.takes b) ∧
      doMatch js (caps ++ [.done u]) v = some r := by
  rw [doMatch] at h
  obtain ⟨u, v, rfl, hu, hv⟩ := doMatch_singles_sound his h
  exact ⟨u, v, rfl, hu, (doMatch_endCapture u v).symm.trans hv⟩

theorem doMatch_literal_sound (h : doMatch (literalItems bs ++ js) caps s = some r) :
    ∃ v, s = bs ++ v ∧ doMatch js caps v = some r := by
  by_cases hp : bs <+: s
  · obtain ⟨v, rfl⟩ := hp
    exact ⟨v, rfl, (doMatch_literal bs js caps v).symm.trans h⟩
  · rw [doMatch_literal_none hp] at h
    cases h

/-- `c-` takes the shortest run after which the rest matches. -/
theorem doMatch_minus_first {c : Single} {u v : Bytes} (hu : ∀ b ∈ u, singleMatch b c)
    (hfirst : ∀ w x, u = w ++ x → x ≠ [] → doMatch is caps (x ++ v) = none)
    (hr : doMatch is caps v = some r) :
    doMatch (.single c .minus :: is) caps (u ++ v) = some r := by
  rw [doMatch, expand]
  induction u with
  | nil =>
    cases v with
    | nil => exact hr
    | cons b v => rw [List.nil_append, minExpand, hr]
  | cons b u ih =>
    rw [List.cons_append, minExpand, ← List.cons_append,
      hfirst [] (b :: u) rfl (List.cons_ne_nil _ _)]
    dsimp only
    rw [if_pos (hu b (List.mem_cons_self ..))]
    exact ih (fun d hd => hu d (List.mem_cons_of_mem _ hd))
      fun w x hwx => hfirst (b :: w) x (by rw [hwx, List.cons_append])

end

/-! ### Classes of one byte -/

/-- A class that is no letter of the library stands for its byte. -/
def Item.reduce : Item → Item
  | .single (.cls l) q => if isAlnum l then .single (.cls l) q else .single (.lit l) q
  | i => i

theorem doMatch_reduce (is : List Item) (caps : List Capture) (s : Bytes) :
    doMatch (is.map Item.reduce) caps s = doMatch is caps s := by
  induction is generalizing caps s with
  | nil => rfl
  | cons i is ih =>
    have hrest : ∀ caps, doMatch (is.map Item.reduce) caps = doMatch is caps :=
      fun caps => funext fun s => ih caps s
    rw [List.map_cons]
    cases i with
    | single c q =>
      have hsame : doMatch (.single c q :: is.map Item.reduce) caps s =
          doMatch (.single c q :: is) caps s := by
        rw [doMatch, doMatch, hrest]
      cases c with
      | cls l =>
        rw [Item.reduce]
        split_ifs with hl
        · exact hsame
        · have htest : (fun b => singleMatch b (.lit l)) = fun b => singleMatch b (.cls l) := by
            funext b
            rw [Bool.eq_iff_iff]
            refine Iff.trans ?_ (matchClass_literal (Bool.not_eq_true _ ▸ hl) b).symm
            rw [singleMatch, beq_iff_eq, eq_comm]
          rw [doMatch, doMatch, hrest, htest]
      | any => exact hsame
      | lit b => exact hsame
      | set negated items => exact hsame
    | startCapture => exact ih _ _
    | endCapture => exact ih _ _
    | eos =>
      rw [Item.reduce, doMatch, doMatch]
      · rw [ih]
      · simp

theorem scanFrom_congr {js : List Item} (h : ∀ s, matchHere is s = matchHere js s) (k : Nat)
    (s : Bytes) : scanFrom is k s = scanFrom js k s := by
  induction s generalizing k with
  | nil =>
    cases k with
    | succ k => rfl
    | zero => rw [scanFrom, scanFrom, h]
  | cons b s ih =>
    cases k with
    | succ k => exact ih k
    | zero => simp only [scanFrom, h, ih]

theorem matchHere_reduce (is : List Item) (s : Bytes) :
    matchHere (is.map Item.reduce) s = matchHere is s := by
  rw [matchHere, matchHere, doMatch_reduce]

theorem gsubStr_reduce (is : List Item) (repl s : Bytes) :
    gsubStr ⟨false, is.map Item.reduce⟩ repl s = gsubStr ⟨false, is⟩ repl s := by
  simp only [gsubStr, replaceAll, scan, Bool.false_eq_true, ↓reduceIte,
    scanFrom_congr (matchHere_reduce is)]

/-- A text that ends in a byte found nowhere else is replaced at one place. -/
theorem gsubStr_once {p : Pattern} {bs repl u v : Bytes} {x : Byte} (hp : p.anchor = false)
    (hitems : p.items.map Item.reduce = literalItems (bs ++ [x])) (hrepl : ch '%' ∉ repl)
    (hbs : x ∉ bs) (hu : x ∉ u) (hv : x ∉ v) :
    gsubStr p repl (u ++ (bs ++ x :: v)) = u ++ (repl ++ v) := by
  obtain ⟨anchor, is⟩ := p
  obtain rfl := hp
  rw [← gsubStr_reduce, hitems]
  have hx : x ∈ bs ++ [x] := by simp
  have hmiss : (⟨false, literalItems (bs ++ [x])⟩ : Pattern).Misses v :=
    .of_absent fun h => hv (h.subset hx)
  induction u with
  | nil =>
    have hm : matchHere (literalItems (bs ++ [x])) (bs ++ x :: v) =
        some ⟨bs ++ [x], [bs ++ [x]], v⟩ := by
      have hsplit : bs ++ x :: v = (bs ++ [x]) ++ v := by simp
      rw [hsplit, matchHere_literal, if_pos (List.prefix_append _ v), List.drop_left]
    rw [List.nil_append, gsubStr, replaceAll_hit hm (by simp), addS_plain _ hrepl,
      replaceAll_misses hmiss]
    rfl
  | cons b u ih =>
    have hno : ¬ bs ++ [x] <+: b :: (u ++ (bs ++ x :: v)) := by
      rintro ⟨t, ht⟩
      have hmark : bs ++ x :: t = (b :: (u ++ bs)) ++ x :: v := by simpa using ht
      have hbefore : x ∉ b :: (u ++ bs) := by
        rw [List.mem_cons, not_or] at hu ⊢
        simp [hu.1, hu.2, hbs]
      have hlen := congrArg List.length (append_mark_inj hbs hbefore hmark).1
      rw [List.length_cons, List.length_append] at hlen
      omega
    have hm : matchHere (literalItems (bs ++ [x])) (b :: (u ++ (bs ++ x :: v))) = none := by
      rw [matchHere_literal, if_neg hno]
    rw [List.cons_append, gsubStr, replaceAll_miss hm]
    exact congrArg (b :: ·) (ih fun h => hu (List.mem_cons_of_mem _ h))

theorem Pattern.Misses.of_reduce {p : Pattern} {b : Bytes}
    (hp : p.items.map Item.reduce = literalItems b) (h : ¬ b <:+: s) : p.Misses s := by
  intro v hv _
  rw [← matchHere_reduce, hp]
  exact Pattern.Misses.of_absent h v hv (by simp)

/-- A byte that is in the text once has no run. -/
theorem Pattern.Misses.of_once {p : Pattern} {x : Byte}
    (hp : headPair p.items = some (.lit x, .lit x)) {u v : Bytes} (hu : x ∉ u) (hv : x ∉ v) :
    p.Misses (u ++ x :: v) := by
  refine .of_pair hp fun w b e z hsplit hb => beq_false_of_ne fun he => hv ?_
  obtain rfl : x = b := by simpa [singleMatch] using hb
  obtain ⟨_, _, rfl⟩ := (List.append_cons_inj_of_notMem hu hv).mp hsplit
  simp [he]

/-! ### Templates -/

/-- A literal text, or a captured run of single bytes. -/
inductive Segment
  | lit (bs : Bytes)
  | cap (is : List Item)
  deriving DecidableEq

def Segment.items : Segment → List Item
  | .lit bs => literalItems bs
  | .cap is => .startCapture :: (is ++ [.endCapture])

def Segment.isSimple : Segment → Bool
  | .lit _ => true
  | .cap is => is.all Item.isSingle

/-- The text is that of the segments, with these texts captured. -/
def Fills : List Segment → Bytes → List Bytes → Prop
  | [], w, ts => w = [] ∧ ts = []
  | .lit bs :: segs, w, ts => ∃ v, w = bs ++ v ∧ Fills segs v ts
  | .cap is :: segs, w, ts => ∃ u v us, w = u ++ v ∧ ts = u :: us ∧
      (∀ b ∈ u, ∃ i ∈ is, i.takes b) ∧ Fills segs v us

theorem doMatch_fills {segs : List Segment} {caps : List Capture} {r : Bytes} {c : List Capture}
    (hsegs : ∀ seg ∈ segs, seg.isSimple = true)
    (h : doMatch (segs.flatMap Segment.items) caps s = some (r, c)) :
    ∃ w ts, s = w ++ r ∧ c = caps ++ ts.map .done ∧ Fills segs w ts := by
  induction segs generalizing caps s with
  | nil =>
    simp only [List.flatMap_nil, doMatch, Option.some.injEq, Prod.mk.injEq] at h
    exact ⟨[], [], by simp [h.1], by simp [h.2], rfl, rfl⟩
  | cons seg segs ih =>
    have hrest : ∀ seg ∈ segs, seg.isSimple = true :=
      fun seg hseg => hsegs seg (List.mem_cons_of_mem _ hseg)
    rw [List.flatMap_cons] at h
    cases seg with
    | lit bs =>
      obtain ⟨v, rfl, hv⟩ := doMatch_literal_sound h
      obtain ⟨w, ts, rfl, rfl, hfills⟩ := ih hrest hv
      exact ⟨bs ++ w, ts, by simp, rfl, w, rfl, hfills⟩
    | cap is =>
      have his : ∀ i ∈ is, i.isSingle = true := by
        simpa [Segment.isSimple] using hsegs _ (List.mem_cons_self ..)
      rw [Segment.items, List.cons_append, List.append_assoc] at h
      obtain ⟨u, v, rfl, hu, hv⟩ := doMatch_capture_sound his h
      obtain ⟨w, ts, rfl, rfl, hfills⟩ := ih hrest hv
      exact ⟨u ++ w, u :: ts, by simp, by simp, u, w, ts, rfl, rfl, hu, hfills⟩

/-- The match of a template is filled with its captures. -/
theorem matchHere_fills {segs : List Segment} (hsegs : ∀ seg ∈ segs, seg.isSimple = true)
    (h : matchHere (segs.flatMap Segment.items) s = some m) :
    ∃ ts, Fills segs m.whole ts ∧ (ts ≠ [] → m.captures = ts) := by
  obtain ⟨⟨r, c⟩, hd, rfl⟩ := Option.map_eq_some_iff.mp h
  obtain ⟨w, ts, rfl, hc, hfills⟩ := doMatch_fills hsegs hd
  have hwhole : (w ++ r).take ((w ++ r).length - r.length) = w := by simp
  refine ⟨ts, by simpa only [hwhole] using hfills, fun hne => ?_⟩
  have hc' : c ≠ [] := by simpa [hc] using hne
  simp only [pushCaptures, hc', ↓reduceIte]
  rw [hc, List.nil_append, List.map_map]
  exact List.map_id ts

/-! ### A text between two marks -/

section
variable {c d : Single} {v w : Bytes} {b e : Byte}

/-- `d(c+)d` -/
def betweenItems (d c : Single) : List Item :=
  [.single d .one, .startCapture, .single c .plus, .endCapture, .single d .one]

/-- The last mark that may end the text ends it. -/
theorem matchHere_between (h : matchHere (betweenItems d c) s = some m) :
    ∃ b v e, s = b :: (v ++ e :: m.after) ∧ m.whole = b :: (v ++ [e]) ∧ m.captures = [v] ∧
      v ≠ [] ∧ (∀ x ∈ v, singleMatch x c) ∧ singleMatch b d ∧ singleMatch e d ∧
      ∀ u x t, m.after = u ++ x :: t → (∀ y ∈ e :: u, singleMatch y c) →
        singleMatch x d = false := by
  obtain ⟨⟨r, caps⟩, hd, rfl⟩ := Option.map_eq_some_iff.mp h
  obtain ⟨b, s, rfl, hb, hd⟩ := doMatch_one_sound hd
  rw [doMatch] at hd
  cases s with
  | nil => cases hd
  | cons x s =>
    rw [doMatch, expand] at hd
    split at hd
    · rename_i hx
      obtain ⟨v, t, rfl, hv, ht, hlast⟩ := maxExpand_greedy hd
      have hend := (doMatch_endCapture (x :: v) t).symm.trans ht
      obtain ⟨e, t, rfl, he, hr⟩ := doMatch_one_sound hend
      obtain ⟨rfl, rfl⟩ := Prod.mk.inj (Option.some.inj hr)
      have hwhole : (b :: (x :: v ++ e :: t)).take ((b :: (x :: v ++ e :: t)).length - t.length) =
          b :: (x :: v ++ [e]) := by
        have hsplit : b :: (x :: v ++ e :: t) = (b :: (x :: v ++ [e])) ++ t := by simp
        rw [hsplit, List.length_append, Nat.add_sub_cancel, List.take_left]
      refine ⟨b, x :: v, e, rfl, hwhole, rfl, List.cons_ne_nil _ _, ?_, hb, he, ?_⟩
      · intro y hy
        rcases List.mem_cons.mp hy with rfl | hy
        · exact hx
        · exact hv y hy
      · intro u y z huz hu
        have hnone := hlast (e :: u) (y :: z) (congrArg (e :: ·) huz)
          (List.cons_ne_nil _ _) hu
        rw [doMatch, doMatch, expand] at hnone
        split at hnone
        · cases hnone
        · rename_i hy
          exact Bool.eq_false_iff.mpr hy
    · cases hd

theorem matchHere_between_none (h : matchHere (betweenItems d c) (b :: (v ++ e :: w)) = none)
    (hb : singleMatch b d) (hne : v ≠ []) (hv : ∀ x ∈ v, singleMatch x c) :
    singleMatch e d = false := by
  rw [matchHere, Option.map_eq_none_iff, betweenItems, doMatch_one hb, doMatch] at h
  obtain ⟨x, v, rfl⟩ := List.exists_cons_of_ne_nil hne
  rw [List.cons_append, doMatch, expand, if_pos (hv x (List.mem_cons_self ..))] at h
  have hrest := maxExpand_none h fun y hy => hv y (List.mem_cons_of_mem _ hy)
  rw [doMatch, doMatch, expand] at hrest
  split at hrest
  · cases hrest
  · rename_i he
    exact Bool.eq_false_iff.mpr he

end

end Lua
