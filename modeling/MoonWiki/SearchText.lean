import MoonWiki.ResponseHeader
import MoonWiki.SaveThenGet

/-! The text of a search, from the form into the location and back. -/
namespace MoonWiki
open Lua

/-! ### Escaping and unescaping -/

/-- What is read back for a byte: a blank has become a plus sign. -/
def readBackByte (b : Byte) : Byte := if b = ch ' ' then ch '+' else b

theorem plus_for_blank (s : Bytes) : gsubStr (pat " ") (str "%+") s = s.map readBackByte := by
  have hp : pat " " = ⟨false, [.single (.lit (ch ' ')) .one]⟩ := by decide
  have hrepl : ∀ m : Match, addS m (str "%+") = [ch '+'] := by
    intro m
    rw [show str "%+" = [37, 43] by decide]
    simp [addS, ch, isDigit]
  rw [hp, gsubStr, replaceAll_single _ _ (fun _ => [ch '+']) fun _ _ _ => hrepl _]
  induction s with
  | nil => rfl
  | cons b s ih =>
    rw [List.flatMap_cons, ih, List.map_cons, readBackByte]
    by_cases hb : b = ch ' '
    · simp [singleMatch, hb]
    · simp [singleMatch, hb, Ne.symm hb]

/-- An escaped byte is decoded to itself. -/
theorem percentDecode_escapeHttpByte (b : Byte) (s : Bytes) :
    percentDecode ((escapeHttpByte b).flatMap (fun c => if c = ch '+' then str " " else [c]) ++ s) =
      b :: percentDecode s := by
  by_cases halnum : isAlnum b = true
  · have hplus : b ≠ ch '+' := ne_of_test halnum (by decide)
    have hpercent : b ≠ ch '%' := ne_of_test halnum (by decide)
    simpa [escapeHttpByte, halnum, hplus] using percentDecode_cons hpercent s
  · have hdigits : isXDigit (escapeDigit (b.toNat / 16)) ∧ isXDigit (escapeDigit (b.toNat % 16)) ∧
        escapeDigit (b.toNat / 16) ≠ ch '+' ∧ escapeDigit (b.toNat % 16) ≠ ch '+' ∧
        hexChar [escapeDigit (b.toNat / 16), escapeDigit (b.toNat % 16)] = b :=
      forall_byte (P := fun b => isXDigit (escapeDigit (b.toNat / 16)) ∧
        isXDigit (escapeDigit (b.toNat % 16)) ∧ escapeDigit (b.toNat / 16) ≠ ch '+' ∧
        escapeDigit (b.toNat % 16) ≠ ch '+' ∧
        hexChar [escapeDigit (b.toNat / 16), escapeDigit (b.toNat % 16)] = b)
        (by decide +kernel) b
    obtain ⟨hh, hl, hh', hl', hchar⟩ := hdigits
    have hp : ch '%' ≠ ch '+' := by decide
    have hdec := percentDecode_escape hh hl s
    rw [hchar] at hdec
    simpa [escapeHttpByte, halnum, hp, hh', hl'] using hdec

/-- The blanks of a text are read back as plus signs: the plus sign that stands for a blank is
escaped like any other byte. -/
theorem unescapeHttp_escapeHttp (s : Bytes) : unescapeHttp (escapeHttp s) = s.map readBackByte := by
  rw [escapeHttp_eq, plus_for_blank, unescapeHttp_eq]
  generalize s.map readBackByte = t
  induction t with
  | nil => exact percentDecode_nil
  | cons b t ih =>
    rw [List.flatMap_cons, List.flatMap_append, percentDecode_escapeHttpByte, ih]

theorem readBack_eq_iff (s : Bytes) : s.map readBackByte = s ↔ ch ' ' ∉ s := by
  have hsame : s.map readBackByte = s ↔ ∀ b ∈ s, readBackByte b = b := by
    conv_lhs => rw [← List.map_id s, List.map_map, List.map_inj_left]
    rfl
  rw [hsame]
  constructor
  · intro h hblank
    exact absurd (h _ hblank) (by decide)
  · intro h b hb
    have hne : b ≠ ch ' ' := fun heq => h (heq ▸ hb)
    rw [readBackByte, if_neg hne]

/-! ### The search -/

/-- The text of a search that was posted. -/
def postedSearch (s : State) : Bytes := (s.request.form.get (str "search")).getD []

theorem isValueByte_escapeHttp (s : Bytes) : ∀ b ∈ escapeHttp s, isValueByte b := by
  intro b hb
  rw [escapeHttp_eq] at hb
  obtain ⟨c, _, hc⟩ := List.mem_flatMap.mp hb
  exact List.all_eq_true.mp (forall_byte (P := fun c => (escapeHttpByte c).all isValueByte = true)
    (by decide +kernel) c) b hc

/-- The parameter of the request that follows the redirection. -/
theorem asks_search {s : State} {d : Disk} {text : Bytes}
    (h : Asks s d (str "/" ++ (str "SearchPage?search=" ++ escapeHttp text))) :
    s.request.parameters.get (str "search") = some (text.map readBackByte) := by
  have hlocation : str "/" ++ (str "SearchPage?search=" ++ escapeHttp text) =
      str "/SearchPage" ++ ch '?' :: (str "search" ++ str "=" ++ escapeHttp text ++ []) := by
    rw [← List.append_assoc, show str "/" ++ str "SearchPage?search=" =
      str "/SearchPage" ++ ch '?' :: (str "search" ++ str "=") by decide]
    simp
  rw [h.parameters, hlocation, parseParameters_append (by decide),
    parseFields_pair (by decide) (by decide) (isValueByte_escapeHttp text) (by simp),
    parseFields_nil, unescapeHttp_escapeHttp]
  exact Table.get_set_self ..

/-- A text comes back from its escaped form, and from the location of a search, exactly when it
has no blank; among these texts the escaped forms are different. -/
theorem escapeHttp_inverse_iff (text : Bytes) :
    (unescapeHttp (escapeHttp text) = text ↔ ch ' ' ∉ text) ∧
      (∀ other, ch ' ' ∉ text → ch ' ' ∉ other → escapeHttp other = escapeHttp text →
        other = text) ∧
      ∀ s : State, postedSearch s = text → ∃ location,
        (postHandlerSearch s).2.response.location = some location ∧
          ((∀ (s' : State) (d : Disk), Asks s' d (str "/" ++ location) →
            s'.request.parameters.get (str "search") = some text) ↔ ch ' ' ∉ text) := by
  refine ⟨?_, fun other htext hother h => ?_, ?_⟩
  · rw [unescapeHttp_escapeHttp, readBack_eq_iff]
  · have hback := congrArg unescapeHttp h
    rwa [unescapeHttp_escapeHttp, unescapeHttp_escapeHttp, (readBack_eq_iff other).mpr hother,
      (readBack_eq_iff text).mpr htext] at hback
  · rintro s rfl
    refine ⟨_, rfl, ?_⟩
    rw [← readBack_eq_iff]
    constructor
    · intro h
      obtain ⟨s', hasks, _⟩ := exists_asks .insertion s.disk
        (str "/" ++ (str "SearchPage?search=" ++ escapeHttp (postedSearch s)))
      exact Option.some.inj ((asks_search hasks).symm.trans (h s' s.disk hasks))
    · intro h s' d hasks
      rw [asks_search hasks]
      exact congrArg some h

theorem escapeHttp_inverse_foo : unescapeHttp (escapeHttp (str "foo")) = str "foo" :=
  (escapeHttp_inverse_iff (str "foo")).1.mpr (by decide)

/-- A blank and a plus sign have one escaped form, which is read back as the plus sign. -/
theorem escapeHttp_blank_not_inverse :
    ¬ ((∀ s, unescapeHttp (escapeHttp s) = s) ∨ Function.Injective escapeHttp) := by
  have hblank : escapeHttp (str " ") = str "%2b" ∧ escapeHttp (str "+") = str "%2b" ∧
      unescapeHttp (str "%2b") = str "+" := by decide +kernel
  obtain ⟨hb, hp, hback⟩ := hblank
  rintro (hinverse | hinjective)
  · have h := hinverse (str " ")
    rw [hb, hback] at h
    exact absurd h (by decide)
  · exact absurd (hinjective (hb.trans hp.symm)) (by decide)

end MoonWiki
