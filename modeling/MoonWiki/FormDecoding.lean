import MoonWiki.PostHandlers

/-! Form and query decoding undoes the standard encoding. -/
namespace MoonWiki
open Lua

/-! ### The encoding -/

def hexDigit (n : Nat) : Byte := if n < 10 then UInt8.ofNat (48 + n) else UInt8.ofNat (55 + n)

/-- A blank is `+`, letters and digits stand for themselves, other bytes are `%XX`. -/
def encodeByte (b : Byte) : Bytes :=
  if b = ch ' ' then [ch '+']
  else if isAlnum b then [b]
  else [ch '%', hexDigit (b.toNat / 16), hexDigit (b.toNat % 16)]

def urlencode (s : Bytes) : Bytes := s.flatMap encodeByte

def encodeField (field : Bytes × Bytes) : Bytes := field.1 ++ str "=" ++ urlencode field.2

/-- `name=value` pairs joined by `&`. -/
def encodeFields (fields : List (Bytes × Bytes)) : Bytes :=
  (str "&").intercalate (fields.map encodeField)

/-- Distinct names, each of one lower-case letter or more. -/
structure FieldNames (fields : List (Bytes × Bytes)) : Prop where
  distinct : (fields.map Prod.fst).Nodup
  nonempty : ∀ field ∈ fields, field.1 ≠ []
  lower : ∀ field ∈ fields, ∀ b ∈ field.1, isLower b

/-! ### Decoding a value -/

theorem unescape_pattern : pat "%%(%x%x)" =
    ⟨false, [.single (.cls (ch '%')) .one, .startCapture, .single (.cls (ch 'x')) .one,
      .single (.cls (ch 'x')) .one, .endCapture]⟩ := by decide

theorem plus_pattern : pat "%+" = ⟨false, [.single (.cls (ch '+')) .one]⟩ := by decide

/-- The second pass of `unescapeHttp`. -/
def percentDecode (s : Bytes) : Bytes := gsub (pat "%%(%x%x)") (fun c => [hexChar (c.getD 0 [])]) s

theorem percentDecode_nil : percentDecode [] = [] := by
  rw [percentDecode, unescape_pattern]
  exact replaceAll_nil rfl

theorem singleMatch_percent (b : Byte) : singleMatch b (.cls (ch '%')) = (b == ch '%') :=
  BEq.comm

theorem singleMatch_plus (b : Byte) : singleMatch b (.cls (ch '+')) = (b == ch '+') :=
  BEq.comm

theorem singleMatch_xdigit (b : Byte) : singleMatch b (.cls (ch 'x')) = isXDigit b := rfl

theorem percentDecode_cons {b : Byte} (hb : b ≠ ch '%') (s : Bytes) :
    percentDecode (b :: s) = b :: percentDecode s := by
  rw [percentDecode, unescape_pattern]
  refine replaceAll_miss (matchHere_eq_none ?_)
  simp [doMatch, expand, singleMatch_percent, hb]

theorem percentDecode_escape {h l : Byte} (hh : isXDigit h) (hl : isXDigit l) (s : Bytes) :
    percentDecode (ch '%' :: h :: l :: s) = hexChar [h, l] :: percentDecode s := by
  have hd : doMatch (pat "%%(%x%x)").items [] ([ch '%', h, l] ++ s) =
      some (s, [.done [h, l]]) := by
    have hlen : s.length + 1 + 1 - s.length = 2 := by omega
    rw [unescape_pattern]
    simp [doMatch, expand, singleMatch_percent, singleMatch_xdigit, hh, hl, endCapture, hlen]
  have hm := matchHere_of_doMatch hd
  rw [percentDecode, unescape_pattern]
  rw [unescape_pattern] at hm
  exact replaceAll_hit hm (by simp)

theorem percentDecode_encodeByte (b : Byte) (s : Bytes) :
    percentDecode ((encodeByte b).flatMap (fun c => if c = ch '+' then str " " else [c]) ++ s) =
      b :: percentDecode s := by
  by_cases hspace : b = ch ' '
  · subst hspace
    exact percentDecode_cons (by decide) s
  · by_cases halnum : isAlnum b = true
    · have hb : b ≠ ch '+' ∧ b ≠ ch '%' := by
        constructor <;> (rintro rfl; revert halnum; decide)
      simpa [encodeByte, hspace, halnum, hb.1] using percentDecode_cons hb.2 s
    · have hdigits : isXDigit (hexDigit (b.toNat / 16)) ∧ isXDigit (hexDigit (b.toNat % 16)) ∧
          hexDigit (b.toNat / 16) ≠ ch '+' ∧ hexDigit (b.toNat % 16) ≠ ch '+' ∧
          hexChar [hexDigit (b.toNat / 16), hexDigit (b.toNat % 16)] = b :=
        forall_byte (P := fun b => isXDigit (hexDigit (b.toNat / 16)) ∧
          isXDigit (hexDigit (b.toNat % 16)) ∧ hexDigit (b.toNat / 16) ≠ ch '+' ∧
          hexDigit (b.toNat % 16) ≠ ch '+' ∧
          hexChar [hexDigit (b.toNat / 16), hexDigit (b.toNat % 16)] = b) (by decide +kernel) b
      obtain ⟨hh, hl, hh', hl', hchar⟩ := hdigits
      have hp : ch '%' ≠ ch '+' := by decide
      have hdec := percentDecode_escape hh hl s
      rw [hchar] at hdec
      simpa [encodeByte, hspace, halnum, hp, hh', hl'] using hdec

theorem unescapeHttp_eq (s : Bytes) :
    unescapeHttp s = percentDecode (s.flatMap fun b => if b = ch '+' then str " " else [b]) := by
  have hplus : gsubStr (pat "%+") (str " ") s =
      s.flatMap fun b => if b = ch '+' then str " " else [b] := by
    rw [plus_pattern, gsubStr_single _ (by decide)]
    simp [singleMatch_plus]
  rw [unescapeHttp, hplus, percentDecode]

/-- Plus signs are decoded before percent signs, and no decoded byte is decoded again. -/
theorem unescapeHttp_urlencode (s : Bytes) : unescapeHttp (urlencode s) = s := by
  rw [unescapeHttp_eq]
  induction s with
  | nil => exact percentDecode_nil
  | cons b s ih =>
    rw [urlencode, List.flatMap_cons, List.flatMap_append, percentDecode_encodeByte]
    exact congrArg (b :: ·) ih

/-! ### Splitting the fields -/

def fieldItems : List Item :=
  [.startCapture, .single (.set true [.lit 61, .lit 63, .lit 38, .lit 59]) .plus, .endCapture,
    .single (.lit 61) .one, .startCapture,
    .single (.set true [.lit 59, .lit 38, .cls 115]) .star, .endCapture]

theorem field_pattern : pat "([^=?&;]+)=([^;&%s]*)" = ⟨false, fieldItems⟩ := by decide

/-- The bytes that a field name may hold, and those of an encoded value. -/
def isNameByte (b : Byte) : Bool := singleMatch b (.set true [.lit 61, .lit 63, .lit 38, .lit 59])
def isValueByte (b : Byte) : Bool := singleMatch b (.set true [.lit 59, .lit 38, .cls 115])

theorem isNameByte_of_isLower {b : Byte} (h : isLower b) : isNameByte b := by
  have hother : ∀ c, isLower c = false → (c == b) = false := fun c hc =>
    beq_eq_false_iff_ne.mpr (ne_of_test h hc).symm
  simp [isNameByte, singleMatch, matchBracketClass, SetItem.test, hother 61 (by decide),
    hother 63 (by decide), hother 38 (by decide), hother 59 (by decide)]

theorem isValueByte_of_mem_encodeByte {b c : Byte} (h : c ∈ encodeByte b) : isValueByte c :=
  List.all_eq_true.mp (forall_byte (P := fun b => (encodeByte b).all isValueByte = true)
    (by decide +kernel) b) c h

theorem isValueByte_of_mem_urlencode {s : Bytes} {c : Byte} (h : c ∈ urlencode s) :
    isValueByte c := by
  obtain ⟨b, _, hc⟩ := List.mem_flatMap.mp h
  exact isValueByte_of_mem_encodeByte hc

/-- One field: the name up to the equals sign, the value up to a separator. -/
theorem matchHere_field {name value rest : Bytes} (hne : name ≠ [])
    (hname : ∀ b ∈ name, isNameByte b) (hvalue : ∀ b ∈ value, isValueByte b)
    (hrest : ∀ b t, rest = b :: t → isValueByte b = false) :
    matchHere fieldItems (name ++ 61 :: (value ++ rest)) =
      some ⟨name ++ 61 :: value, [name, value], rest⟩ := by
  have hd : doMatch fieldItems [] ((name ++ 61 :: value) ++ rest) =
      some (rest, [.done name, .done value]) := by
    rw [List.append_assoc, List.cons_append]
    refine doMatch_capture_plus hne hname ?_ ?_
    · intro b t hb
      obtain ⟨rfl, _⟩ := List.cons.inj hb
      rfl
    · rw [doMatch_one rfl]
      exact doMatch_capture_star hvalue hrest rfl
  simpa [pushCaptures] using matchHere_of_doMatch hd

/-- No field starts at a separator. -/
theorem matchHere_separator {b : Byte} (hb : isNameByte b = false) (s : Bytes) :
    matchHere fieldItems (b :: s) = none := by
  refine matchHere_eq_none ?_
  simp only [isNameByte] at hb
  simp [fieldItems, doMatch, expand, hb]

theorem parseFields_separator {b : Byte} (hb : isNameByte b = false) (s : Bytes) (t : Table) :
    parseFields (b :: s) t = parseFields s t := by
  rw [parseFields, field_pattern, gfind_miss (matchHere_separator hb s), ← field_pattern]
  rfl

theorem parseFields_nil (t : Table) : parseFields [] t = t := by
  rw [parseFields, field_pattern, gfind_nil rfl]
  rfl

/-- The value of a field is decoded when it is stored. -/
theorem parseFields_pair {name value rest : Bytes} (hne : name ≠ [])
    (hname : ∀ b ∈ name, isLower b) (hvalue : ∀ b ∈ value, isValueByte b)
    (hrest : ∀ b t, rest = b :: t → isValueByte b = false) (t : Table) :
    parseFields (name ++ str "=" ++ value ++ rest) t =
      parseFields rest (t.set name (unescapeHttp value)) := by
  have hm := matchHere_field hne (fun b hb => isNameByte_of_isLower (hname b hb)) hvalue hrest
  have hlower : lower name = name := lower_eq_self fun b hb => isLower_not_isUpper (hname b hb)
  have hs : name ++ str "=" ++ value ++ rest = name ++ 61 :: (value ++ rest) := by
    rw [show str "=" = [61] by decide, List.append_assoc, List.append_assoc]
    rfl
  rw [hs, parseFields, field_pattern, gfind_hit hm (by simp), List.foldl_cons]
  simp only [List.getD_cons_zero, List.getD_cons_succ, hlower]
  rw [← field_pattern]
  rfl

theorem parseFields_field {name value rest : Bytes} (hne : name ≠ [])
    (hname : ∀ b ∈ name, isLower b) (hrest : ∀ b t, rest = b :: t → isValueByte b = false)
    (t : Table) :
    parseFields (encodeField (name, value) ++ rest) t = parseFields rest (t.set name value) := by
  have hpair := parseFields_pair hne hname
    (fun b hb => isValueByte_of_mem_urlencode (s := value) hb) hrest t
  rwa [unescapeHttp_urlencode] at hpair

/-- The table that holds the fields, later ones first. -/
def setFields (fields : List (Bytes × Bytes)) (t : Table) : Table :=
  fields.foldl (fun t field => t.set field.1 field.2) t

/-- The scan stores every field, whatever its value. -/
theorem parseFields_encodeFields {fields : List (Bytes × Bytes)} (h : FieldNames fields)
    (t : Table) : parseFields (encodeFields fields) t = setFields fields t := by
  induction fields generalizing t with
  | nil => exact parseFields_nil t
  | cons field fields ih =>
    have hne := h.nonempty field (by simp)
    have hlower := h.lower field (by simp)
    have htail : FieldNames fields :=
      ⟨(List.nodup_cons.mp h.distinct).2, fun f hf => h.nonempty f (by simp [hf]),
        fun f hf => h.lower f (by simp [hf])⟩
    cases fields with
    | nil =>
      have hone : parseFields (encodeField (field.1, field.2) ++ []) t =
          parseFields [] (t.set field.1 field.2) := parseFields_field hne hlower (by simp) t
      rw [parseFields_nil, List.append_nil] at hone
      simpa [encodeFields, List.intercalate, setFields] using hone
    | cons next fields =>
      have hamp : isValueByte 38 = false ∧ isNameByte 38 = false := by decide
      have hjoin : encodeFields (field :: next :: fields) =
          encodeField (field.1, field.2) ++ 38 :: encodeFields (next :: fields) := by
        simp [encodeFields, List.intercalate, show str "&" = [38] by decide]
      rw [hjoin, parseFields_field hne hlower, parseFields_separator hamp.2, ih htail]
      · rfl
      · intro b t hb
        obtain ⟨rfl, _⟩ := List.cons.inj hb
        exact hamp.1

theorem setFields_get {fields : List (Bytes × Bytes)} (h : (fields.map Prod.fst).Nodup)
    (t : Table) (k : Bytes) :
    (setFields fields t).get k = match fields.lookup k with
      | some value => some value
      | none => t.get k := by
  induction fields generalizing t with
  | nil => rfl
  | cons field fields ih =>
    obtain ⟨name, value⟩ := field
    obtain ⟨hnot, htail⟩ := List.nodup_cons.mp h
    rw [show setFields ((name, value) :: fields) t = setFields fields (t.set name value) from rfl,
      ih htail]
    by_cases hk : k = name
    · subst hk
      have hnone : fields.lookup k = none := by
        rw [List.lookup_eq_none_iff]
        intro p hp
        have hne : k ≠ p.1 := fun he => hnot (List.mem_map.mpr ⟨p, hp, he.symm⟩)
        simpa using hne
      simp [hnone]
    · have hk' : (k == name) = false := by simpa using hk
      simp [List.lookup_cons, hk', Table.get_set_ne t value hk]

theorem setFields_empty_get {fields : List (Bytes × Bytes)} (h : (fields.map Prod.fst).Nodup)
    (k : Bytes) : (setFields fields .empty).get k = fields.lookup k := by
  rw [setFields_get h]
  cases fields.lookup k <;> rfl

/-! ### The query of a URI -/

def queryItems : List Item :=
  [.startCapture, .single (.cls (ch '?')) .one, .single .any .star, .endCapture]

theorem query_pattern : pat "(%?.*)" = ⟨false, queryItems⟩ := by decide

theorem singleMatch_question (b : Byte) : singleMatch b (.cls (ch '?')) = (b == ch '?') :=
  BEq.comm

theorem matchHere_no_query {b : Byte} (hb : b ≠ ch '?') (s : Bytes) :
    matchHere queryItems (b :: s) = none :=
  matchHere_eq_none (by simp [queryItems, doMatch, expand, singleMatch_question, hb])

/-- The query reaches to the end of the URI. -/
theorem matchHere_query (q : Bytes) :
    matchHere queryItems (ch '?' :: q) = some ⟨ch '?' :: q, [ch '?' :: q], []⟩ := by
  have hmax : maxExpand (singleMatch · .any)
      (doMatch [.endCapture] [.unfinished (ch '?' :: q)]) q = some ([], [.done (ch '?' :: q)]) := by
    have h : maxExpand (singleMatch · .any)
        (doMatch [.endCapture] [.unfinished (ch '?' :: q)]) (q ++ []) = _ :=
      maxExpand_longest (fun _ _ => rfl) (by simp) rfl
    simpa [doMatch, endCapture] using h
  have hd : doMatch queryItems [] (ch '?' :: q ++ []) = some ([], [.done (ch '?' :: q)]) := by
    simpa [queryItems, doMatch, expand, singleMatch_question] using hmax
  simpa [pushCaptures] using matchHere_of_doMatch hd

theorem stripQuery_append {path : Bytes} (hpath : ch '?' ∉ path) (q : Bytes) :
    stripQuery (path ++ ch '?' :: q) = path := by
  rw [stripQuery, query_pattern]
  induction path with
  | nil =>
    refine (replaceAll_hit (matchHere_query q) (by simp)).trans ?_
    exact replaceAll_nil rfl
  | cons b path ih =>
    have hb : b ≠ ch '?' := fun h => hpath (by simp [h])
    refine (replaceAll_miss (matchHere_no_query hb _)).trans ?_
    exact congrArg (b :: ·) (ih fun h => hpath (by simp [h]))

theorem parseParameters_append {path : Bytes} (hpath : ch '?' ∉ path) (q : Bytes) (t : Table) :
    parseParameters (path ++ ch '?' :: q) t = parseFields q t := by
  have hfind : gfind (pat "(%?.*)") (path ++ ch '?' :: q) = [[ch '?' :: q]] := by
    rw [query_pattern]
    induction path with
    | nil => rw [List.nil_append, gfind_hit (matchHere_query q) (by simp), gfind_nil rfl]
    | cons b path ih =>
      have hb : b ≠ ch '?' := fun h => hpath (by simp [h])
      rw [List.cons_append, gfind_miss (matchHere_no_query hb _),
        ih fun h => hpath (by simp [h])]
  rw [parseParameters, hfind]
  exact parseFields_separator (by decide) q t

/-! ### The request -/

/-- When the whole body has arrived, only the form is parsed. -/
theorem readBody_complete {s : State} {value : Bytes}
    (hlen : s.request.options.get (str "content-length") = some value)
    (hn : IsDecimal value s.request.postData.length) :
    readBody s = (.ok true, { s with request := { s.request with
      form := parseFields s.request.postData s.request.form } }) := by
  simp [readBody, Run.bind_apply, hlen, toNumber_of_isDecimal hn, setRequest]

/-- The fields were sent as the body of the request, which has arrived. -/
structure Posted (s : State) (fields : List (Bytes × Bytes)) : Prop where
  data : s.request.postData = encodeFields fields
  form : s.request.form = .empty
  length : ∃ value, s.request.options.get (str "content-length") = some value ∧
    IsDecimal value (encodeFields fields).length

/-- The state after the fields were parsed. -/
def State.withForm (s : State) (fields : List (Bytes × Bytes)) : State :=
  { s with request := { s.request with form := setFields fields .empty } }

theorem readBody_posted {s : State} {fields : List (Bytes × Bytes)} (h : FieldNames fields)
    (hp : Posted s fields) : readBody s = (.ok true, s.withForm fields) := by
  obtain ⟨value, hlen, hn⟩ := hp.length
  rw [readBody_complete hlen (hp.data ▸ hn), hp.data, hp.form, parseFields_encodeFields h]
  rfl

/-- Query and form come back as they were encoded. -/
theorem decode_encodeFields {fields : List (Bytes × Bytes)} (h : FieldNames fields) :
    (∀ (request : Request) (path : Bytes), ch '?' ∉ path →
      request.uri = path ++ str "?" ++ encodeFields fields → request.parameters = .empty →
      (parseHeaderFields request).url = path ∧
      ∀ k, (parseHeaderFields request).parameters.get k = fields.lookup k) ∧
    ∀ s : State, Posted s fields →
      ∃ s', readBody s = (.ok true, s') ∧ ∀ k, s'.request.form.get k = fields.lookup k := by
  constructor
  · intro request path hpath huri hempty
    have hq : request.uri = path ++ ch '?' :: encodeFields fields := by
      rw [huri, show str "?" = [ch '?'] by decide, List.append_assoc]
      rfl
    refine ⟨?_, fun k => ?_⟩
    · change stripQuery request.uri = path
      rw [hq, stripQuery_append hpath]
    · change (parseParameters request.uri request.parameters).get k = _
      rw [hq, parseParameters_append hpath, hempty, parseFields_encodeFields h,
        setFields_empty_get h.distinct]
  · intro s hp
    exact ⟨_, readBody_posted h hp, setFields_empty_get h.distinct⟩

theorem decode_search_field :
    ((parseHeaderFields { uri := str "/SearchPage?search=a%2Bb+%25" }).url = str "/SearchPage" ∧
      (parseHeaderFields { uri := str "/SearchPage?search=a%2Bb+%25" }).parameters.get
        (str "search") = some (str "a+b %")) ∧
    ∃ s', readBody { State.fresh with
        request := {
          postData := str "search=a%2Bb+%25"
          options := Table.empty.set (str "content-length") (str "16") } } = (.ok true, s') ∧
      s'.request.form.get (str "search") = some (str "a+b %") := by
  have hf : FieldNames [(str "search", str "a+b %")] :=
    ⟨by decide, by decide, by decide⟩
  obtain ⟨hquery, hform⟩ := decode_encodeFields hf
  obtain ⟨hurl, hparam⟩ := hquery { uri := str "/SearchPage?search=a%2Bb+%25" }
    (str "/SearchPage") (by decide) (by decide) rfl
  obtain ⟨s', hrun, hget⟩ := hform { State.fresh with
      request := {
        postData := str "search=a%2Bb+%25"
        options := Table.empty.set (str "content-length") (str "16") } }
    ⟨by decide, rfl, str "16", by decide, by decide, by decide,
      by decide⟩
  exact ⟨⟨hurl, hparam _⟩, s', hrun, hget _⟩

end MoonWiki
