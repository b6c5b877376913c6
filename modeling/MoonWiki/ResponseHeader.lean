import MoonWiki.LuaErrors
import MoonWiki.SavePage

/-! The header block of a response: its lines, and what a request can put into it. -/
namespace MoonWiki
open Lua

/-! ### Lines -/

/-- CR or LF. -/
def isLineEnd (b : Byte) : Bool := b == 13 || b == 10

def endOfLine : Bytes := [13, 10]

/-- The text is part of one line. -/
def OneLine (s : Bytes) : Prop := ∀ b ∈ s, isLineEnd b = false

instance (s : Bytes) : Decidable (OneLine s) := inferInstanceAs (Decidable (∀ b ∈ s, _))

theorem OneLine.append {s t : Bytes} (hs : OneLine s) (ht : OneLine t) : OneLine (s ++ t) := by
  intro b hb
  rcases List.mem_append.mp hb with hb | hb
  · exact hs b hb
  · exact ht b hb

theorem OneLine.right {s t : Bytes} (h : OneLine (s ++ t)) : OneLine t :=
  fun b hb => h b (by simp [hb])

/-- A text starts with one line only. -/
theorem OneLine.unique {u v x y : Bytes} {b c : Byte} (hu : OneLine u) (hv : OneLine v)
    (hb : isLineEnd b = true) (hc : isLineEnd c = true) (h : u ++ b :: x = v ++ c :: y) :
    u = v ∧ b = c ∧ x = y := by
  induction u generalizing v with
  | nil =>
    cases v with
    | nil => exact ⟨rfl, List.cons.inj h⟩
    | cons d v =>
      obtain ⟨rfl, _⟩ := List.cons.inj h
      rw [hv b (by simp)] at hb
      cases hb
  | cons a u ih =>
    cases v with
    | nil =>
      obtain ⟨rfl, _⟩ := List.cons.inj h
      rw [hu a (by simp)] at hc
      cases hc
    | cons d v =>
      obtain ⟨rfl, htail⟩ := List.cons.inj h
      obtain ⟨rfl, hbc, hxy⟩ := ih (fun e he => hu e (List.mem_cons_of_mem _ he))
        (fun e he => hv e (List.mem_cons_of_mem _ he)) htail
      exact ⟨rfl, hbc, hxy⟩

theorem oneLine_decimal (n : Nat) : OneLine (decimal n) := by
  intro b hb
  have hd := digit_range (isDigit_decimal n b hb)
  simp only [isLineEnd, Bool.or_eq_false_iff, beq_eq_false_iff_ne, ne_eq, UInt8.ext_iff,
    UInt8.reduceToNat]
  omega

theorem oneLine_statusString {status : Nat} {text : Bytes} (h : httpErrors status = some text) :
    OneLine text := by
  obtain ⟨t, ht, rfl⟩ := Option.map_eq_some_iff.mp h
  obtain ⟨l, l', heq, _⟩ := List.lookup_eq_some_iff.mp ht
  have hall : ∀ e ∈ l ++ (status, t) :: l', OneLine (str e.2) := by
    rw [← heq]
    decide
  exact hall (status, t) (by simp)

/-! ### The response and its header block -/

/-- The bytes are one HTTP/1.1 message: a status line, fields, an empty line and a body of the
length that is announced. -/
def IsHttpMessage (s : Bytes) : Prop :=
  ∃ (statusLine : Bytes) (fields : List (Bytes × Bytes)) (body : Bytes),
    s = statusLine ++ endOfLine ++
      fields.flatMap (fun (name, value) => name ++ ch ':' :: value ++ endOfLine) ++
        endOfLine ++ body ∧
    str "HTTP/1.1 " <+: statusLine ∧ OneLine statusLine ∧
    (∀ f ∈ fields, f.1 ≠ [] ∧ ch ':' ∉ f.1 ∧ OneLine f.1 ∧ OneLine f.2) ∧
    ∃ value, (str "Content-Length", value) ∈ fields ∧ IsDecimal value body.length

/-- The first line of a response. -/
def statusLine (status : Nat) : Bytes :=
  match httpErrors status with
  | some statusString => str "HTTP/1.1 " ++ decimal status ++ str " " ++ statusString
  | none => str "HTTP/1.1 500 Internal Server Error"

theorem oneLine_statusLine (status : Nat) : OneLine (statusLine status) := by
  rw [statusLine]
  split
  · rename_i text htext
    have hversion : OneLine (str "HTTP/1.1 ") := by decide
    have hblank : OneLine (str " ") := by decide
    exact ((hversion.append (oneLine_decimal status)).append hblank).append
      (oneLine_statusString htext)
  · decide

/-- The line after the version ends in LF CR. -/
theorem createHttpHeader_eq (status : Nat) (contentType : Bytes) (length : Nat) :
    createHttpHeader status contentType length =
      statusLine status ++ endOfLine ++ (str "Server:MoonWiki 0.2" ++ [10, 13] ++
        (str "Content-Type:" ++ contentType ++ endOfLine ++
          (str "Content-Length:" ++ decimal length ++ endOfLine))) := by
  have hend : str "\r\n" = endOfLine := by decide
  have hserver : ∀ rest, str "Server:MoonWiki " ++ (serverConfig.version ++ (str "\n\r" ++ rest)) =
      str "Server:MoonWiki 0.2" ++ ([10, 13] ++ rest) := fun _ => rfl
  have hnone : str "HTTP/1.1 " ++ decimal 500 ++ str " " ++ str "Internal Server Error" =
      str "HTTP/1.1 500 Internal Server Error" := by decide
  rw [createHttpHeader, statusLine]
  cases httpErrors status with
  | some text =>
    simp only [hend, List.append_assoc, hserver]
  | none =>
    rw [← hnone]
    simp only [hend, List.append_assoc, hserver]

theorem not_httpMessage (status : Nat) (contentType : Bytes) (length : Nat) (rest : Bytes) :
    ¬ IsHttpMessage (createHttpHeader status contentType length ++ rest) := by
  rintro ⟨line, fields, body, heq, _, hline, hfields, _⟩
  rw [createHttpHeader_eq] at heq
  simp only [endOfLine, List.append_assoc, List.cons_append, List.nil_append] at heq
  obtain ⟨_, _, hrest⟩ := (oneLine_statusLine status).unique hline (by decide) (by decide) heq
  obtain ⟨_, hserver⟩ := List.cons.inj hrest
  cases fields with
  | nil =>
    have hhead := congrArg List.head? hserver
    simp only [List.flatMap_nil, List.nil_append, List.head?_cons] at hhead
    cases hhead
  | cons f fields =>
    obtain ⟨name, value⟩ := f
    obtain ⟨_, _, hname, hvalue⟩ := hfields (name, value) (by simp)
    have hcolon : OneLine [ch ':'] := by decide
    have hfield : OneLine (name ++ ([ch ':'] ++ value)) := hname.append (hcolon.append hvalue)
    have hversion : OneLine (str "Server:MoonWiki 0.2") := by decide
    simp only [List.flatMap_cons, List.append_assoc, List.cons_append] at hserver
    have hdiffer := hversion.unique hfield (by decide) (by decide)
      (hserver.trans (List.append_assoc name ([ch ':'] ++ value) (13 :: _)).symm)
    exact absurd hdiffer.2.1 (by decide)

/-! ### The response of a request -/

variable {s s' : State} {response : Bytes × Nat}

/-- The line that redirects the client. -/
def locationLine : Option Bytes → Bytes
  | some location => str "Location:" ++ location ++ endOfLine
  | none => []

theorem respond_true (h : respond true s = (.ok response, s')) :
    s' = s ∧ response.1 = s'.response.header ++ str "\r\n" ++ s'.response.content := by
  obtain ⟨hresponse, rfl⟩ := Prod.mk.inj h
  obtain rfl := Except.ok.inj hresponse
  exact ⟨rfl, rfl⟩

theorem prepareErrorResponse_ok {u : Unit} (h : prepareErrorResponse s = (.ok u, s')) :
    s'.response.status = s.response.status ∧ s'.response.location = s.response.location ∧
      s'.response.header =
        createHttpHeader s.response.status (str "text/html") s'.response.content.length ++
          locationLine s.response.location := by
  have hend : str "\r\n" = endOfLine := by decide
  cases htext : httpErrors s.response.status with
  | none => simp [prepareErrorResponse, createHttpErrorPage, Run.bind_apply, htext] at h
  | some text =>
    simp only [prepareErrorResponse, createHttpErrorPage, Run.bind_apply, htext, Run.get_apply,
      Run.pure_apply, Run.modify_apply] at h
    rw [← (Prod.mk.inj h).2]
    refine ⟨rfl, rfl, ?_⟩
    cases s.response.location with
    | none => simp [locationLine]
    | some location => simp [locationLine, hend]

/-- The header block of an error page, a redirection among them. -/
theorem respond_false_header (h : respond false s = (.ok response, s')) :
    s'.response.status = s.response.status ∧ s'.response.location = s.response.location ∧
      s'.response.header =
        createHttpHeader s.response.status (str "text/html") s'.response.content.length ++
          locationLine s.response.location ∧
      response.1 = s'.response.header ++ str "\r\n" ++ s'.response.content := by
  rcases herror : prepareErrorResponse s with ⟨e | u, s₁⟩
  · simp [respond, Run.bind_apply, herror] at h
  · obtain ⟨hstatus, hlocation, hheader⟩ := prepareErrorResponse_ok herror
    simp only [respond, Run.bind_apply, herror, Bool.not_false, ↓reduceIte, Run.get_apply] at h
    obtain ⟨hresponse, rfl⟩ := Prod.mk.inj h
    obtain rfl := Except.ok.inj hresponse
    exact ⟨hstatus, hlocation, hheader, rfl⟩

/-- A handler that makes the response itself starts it with a header block of its own. -/
theorem handleGetRequest_true (h : handleGetRequest s = (.ok true, s')) :
    ∃ status contentType length,
      s'.response.header = createHttpHeader status contentType length := by
  rw [handleGetRequest, Run.bind_apply] at h
  rcases hpage : wikiPage s with ⟨e | page, s₁⟩
  · simp [hpage] at h
  · cases page with
    | some page =>
      simp only [hpage, Run.bind_apply, Run.pure_apply, Run.modify_apply] at h
      exact (Prod.mk.inj h).2 ▸ ⟨_, _, _, rfl⟩
    | none =>
      simp only [hpage, Run.bind_apply, Run.get_apply] at h
      rcases hraw : processRawFile s₁.request.url s₁ with ⟨e | file, s₂⟩
      · simp [hraw] at h
      · cases file with
        | none => simp [hraw] at h
        | some file =>
          simp only [hraw, Run.bind_apply, Run.pure_apply, Run.modify_apply] at h
          exact (Prod.mk.inj h).2 ▸ ⟨_, _, _, rfl⟩

/-! ### Redirections -/

/-- The byte that `escapeHttp` writes for a half of a byte. -/
def escapeDigit (n : Nat) : Byte := if n < 10 then UInt8.ofNat (48 + n) else UInt8.ofNat (87 + n)

def escapeHttpByte (b : Byte) : Bytes :=
  if isAlnum b then [b] else [ch '%', escapeDigit (b.toNat / 16), escapeDigit (b.toNat % 16)]

theorem escapeHttp_eq (parameter : Bytes) :
    escapeHttp parameter =
      (gsubStr (pat " ") (str "%+") parameter).flatMap escapeHttpByte := by
  have hp : pat "[^A-Za-z0-9]" =
      ⟨false, [.single (.set true [.range 65 90, .range 97 122, .range 48 57]) .one]⟩ := by decide
  have hclass : ∀ b, singleMatch b (.set true [.range 65 90, .range 97 122, .range 48 57]) =
      !isAlnum b := by
    intro b
    simp [singleMatch, matchBracketClass, SetItem.test, isAlnum, isAlpha, isUpper, isLower, isDigit,
      Bool.and_assoc]
  rw [escapeHttp, hp, gsub, replaceAll_single _ _
    (fun b => [ch '%', escapeDigit (b.toNat / 16), escapeDigit (b.toNat % 16)]) (fun _ _ _ => rfl)]
  refine congrArg (fun f => List.flatMap f _) (funext fun b => ?_)
  rw [hclass, escapeHttpByte]
  cases isAlnum b <;> rfl

theorem oneLine_of_isAlnum {b : Byte} (h : isAlnum b = true) : isLineEnd b = false := by
  have hcr : b ≠ 13 := ne_of_test h (by decide)
  have hlf : b ≠ 10 := ne_of_test h (by decide)
  simp [isLineEnd, hcr, hlf]

theorem oneLine_escapeHttpByte (b : Byte) : OneLine (escapeHttpByte b) := by
  have hdigit : ∀ n < 16, isLineEnd (escapeDigit n) = false := by decide
  have hhigh : b.toNat / 16 < 16 := by
    have := b.toNat_lt
    omega
  have hlow : b.toNat % 16 < 16 := Nat.mod_lt _ (by decide)
  rw [escapeHttpByte]
  split
  · rename_i h
    simpa [OneLine] using oneLine_of_isAlnum h
  · simp only [OneLine, List.mem_cons, List.not_mem_nil, or_false, forall_eq_or_imp, forall_eq]
    exact ⟨by decide, hdigit _ hhigh, hdigit _ hlow⟩

theorem oneLine_escapeHttp (parameter : Bytes) : OneLine (escapeHttp parameter) := by
  intro b hb
  rw [escapeHttp_eq] at hb
  obtain ⟨c, _, hc⟩ := List.mem_flatMap.mp hb
  exact oneLine_escapeHttpByte c b hc

/-- The page field that a POST request gets into a location as it is: the page that is saved, or
whose editing is cancelled. -/
def Request.redirectedPage (r : Request) (d : Disk) : Option Bytes :=
  match r.form.get (str "action") with
  | none => none
  | some action =>
    if gsubStr (pat " ") [] action = str "Save" ∨
      gsubStr (pat " ") [] action = str "Checkpoint" then
      if (r.form.get (str "text")).isSome ∧ d.writing ≠ .openFails then r.form.get (str "page")
      else none
    else if gsubStr (pat " ") [] action = str "CancelEditing" then r.form.get (str "page")
    else none

/-- The request is redirected, to a location of one line if the page in it is one, or an error is
answered. -/
def Redirected (page : Option Bytes) (s : State) : Prop :=
  s.response.status = 303 ∧ (∃ location, s.response.location = some location ∧
    (OneLine location ↔ ∀ p, page = some p → OneLine p)) ∨
  s.response.status ≠ 303 ∧ s.response.location = none ∧ page = none

theorem redirected_page {start : Bytes} (hstart : OneLine start) (page : Bytes) (s : State) :
    Redirected (some page) (s.redirected (start ++ page)) := by
  refine .inl ⟨rfl, start ++ page, rfl, ?_⟩
  constructor
  · rintro h p ⟨⟩
    exact h.right
  · exact fun h => hstart.append (h page rfl)

theorem redirected_savingHandler {handler : Action Bool}
    (hh : handler ∈ [postHandlerSave, postHandlerCheckpoint])
    (hnone : s.response.location = none) :
    ∃ s', handler s = (.ok false, s') ∧
      Redirected (if (s.request.form.get (str "text")).isSome ∧ s.disk.writing ≠ .openFails then
        s.request.form.get (str "page") else none) s' := by
  have hfails : ∀ {status : Nat} {s₁ : State}, status ≠ 303 → s₁.response.location = none →
      Redirected none (s₁.failed status) := fun hstatus hlocation => .inr ⟨hstatus, hlocation, rfl⟩
  cases ht : s.request.form.get (str "text") with
  | none => exact ⟨_, saveHandlers_none hh (.inl ht), by simpa using hfails (by decide) hnone⟩
  | some content =>
    cases hp : s.request.form.get (str "page") with
    | none => exact ⟨_, saveHandlers_none hh (.inr hp), by simpa using hfails (by decide) hnone⟩
    | some title =>
      have hsaved : (s.saved title content).response.location = none := hnone
      have hrun : ∃ start, OneLine start ∧ handler s = (.ok false,
          if (WikiStore.savePage s.disk title content).1 then
            (s.saved title content).redirected (start ++ title)
          else (s.saved title content).failed 500) := by
        rcases List.mem_pair.mp hh with rfl | rfl
        · exact ⟨str "/", by decide, postHandlerSave_some ht hp⟩
        · exact ⟨str "EditPage?page=", by decide, postHandlerCheckpoint_some ht hp⟩
      obtain ⟨start, hstart, hrun⟩ := hrun
      refine ⟨_, hrun, ?_⟩
      cases hw : s.disk.writing with
      | openFails =>
        rw [savePage_openFails hw]
        simpa using hfails (by decide) hsaved
      | accepts k =>
        rw [savePage_accepts hw]
        simpa using redirected_page hstart title _

theorem handlePostRequest_ok {result : Bool} (h : handlePostRequest s = (.ok result, s'))
    (hnone : s.response.location = none) :
    result = false ∧ Redirected (s.request.redirectedPage s.disk) s' := by
  rw [Request.redirectedPage]
  cases ha : s.request.form.get (str "action") with
  | none => simp [handlePostRequest, Run.bind_apply, ha] at h
  | some action =>
    simp only [handlePostRequest, Run.bind_apply, Run.get_apply, ha, postActionHandler] at h
    by_cases hsaves : gsubStr (pat " ") [] action = str "Save" ∨
        gsubStr (pat " ") [] action = str "Checkpoint"
    · obtain ⟨handler, hh, hrun⟩ : ∃ handler ∈ [postHandlerSave, postHandlerCheckpoint],
          handler s = (.ok result, s') := by
        have hne : str "Checkpoint" ≠ str "Save" := by decide
        rcases hsaves with hsave | hcheckpoint
        · exact ⟨postHandlerSave, by simp, by simpa [hsave] using h⟩
        · exact ⟨postHandlerCheckpoint, by simp, by simpa [hcheckpoint, hne] using h⟩
      obtain ⟨s₁, hrun', hredirected⟩ := redirected_savingHandler hh hnone
      rw [hrun'] at hrun
      obtain ⟨hresult, rfl⟩ := Prod.mk.inj hrun
      simp only [hsaves, ↓reduceIte]
      exact ⟨(Except.ok.inj hresult).symm, hredirected⟩
    · obtain ⟨hsave, hcheckpoint⟩ := not_or.mp hsaves
      simp only [hsave, hcheckpoint, or_self, ↓reduceIte] at h ⊢
      by_cases hcancel : gsubStr (pat " ") [] action = str "CancelEditing"
      · simp only [hcancel, ↓reduceIte] at h ⊢
        cases hp : s.request.form.get (str "page") with
        | none => simp [postHandlerCancelEditing, Run.bind_error (formField_none hp)] at h
        | some page =>
          rw [postHandlerCancelEditing, Run.bind_ok (formField_some hp)] at h
          obtain ⟨hresult, rfl⟩ := Prod.mk.inj h
          exact ⟨(Except.ok.inj hresult).symm, redirected_page (by decide) page s⟩
      · simp only [hcancel, ↓reduceIte] at h ⊢
        by_cases hsearch : gsubStr (pat " ") [] action = str "Search"
        · simp only [hsearch, ↓reduceIte] at h
          obtain ⟨hresult, rfl⟩ := Prod.mk.inj h
          refine ⟨(Except.ok.inj hresult).symm, .inl ⟨rfl, _, rfl, iff_of_true ?_ (by simp)⟩⟩
          exact OneLine.append (by decide) (oneLine_escapeHttp _)
        · simp only [hsearch, ↓reduceIte] at h
          obtain ⟨hresult, rfl⟩ := Prod.mk.inj h
          exact ⟨(Except.ok.inj hresult).symm, .inr ⟨by simp, hnone, rfl⟩⟩

/-! ### Header names -/

/-- What stands before the colon in each line. -/
def headerNames (header : Bytes) : List Bytes :=
  (header.splitOnP isLineEnd).map fun line => line.takeWhile (· ≠ ch ':')

theorem headerNames_line {u v : Bytes} {b : Byte} (hu : OneLine u) (hb : isLineEnd b = true) :
    headerNames (u ++ b :: v) = u.takeWhile (· ≠ ch ':') :: headerNames v := by
  rw [headerNames, List.splitOnP_append_cons_of_forall_mem hu b hb]
  rfl

theorem headerNames_field {name value v : Bytes} {b c : Byte} (hcolon : ch ':' ∉ name)
    (hname : OneLine name) (hvalue : OneLine value) (hb : isLineEnd b = true)
    (hc : isLineEnd c = true) :
    headerNames (name ++ ch ':' :: value ++ [b, c] ++ v) = name :: [] :: headerNames v := by
  have hline : OneLine (name ++ ([ch ':'] ++ value)) :=
    hname.append (OneLine.append (by decide) hvalue)
  have hbefore : (name ++ ([ch ':'] ++ value)).takeWhile (· ≠ ch ':') = name := by
    rw [List.takeWhile_append_of_pos fun d hd => by
      simpa using fun h : d = ch ':' => hcolon (h ▸ hd)]
    simp
  have hsplit : name ++ ch ':' :: value ++ [b, c] ++ v =
      (name ++ ([ch ':'] ++ value)) ++ b :: ([] ++ c :: v) := by simp
  rw [hsplit, headerNames_line hline hb, hbefore, headerNames_line (by decide) hc]
  rfl

/-- The names do not depend on the length. -/
theorem headerNames_createHttpHeader (status length : Nat) (rest : Bytes) :
    headerNames (createHttpHeader status (str "text/html") length ++ rest) =
      (statusLine status).takeWhile (· ≠ ch ':') :: [] :: str "Server" :: [] ::
        str "Content-Type" :: [] :: str "Content-Length" :: [] :: headerNames rest := by
  have hserver : str "Server:MoonWiki 0.2" = str "Server" ++ ch ':' :: str "MoonWiki 0.2" := by
    decide
  have htype : str "Content-Type:" ++ str "text/html" =
      str "Content-Type" ++ ch ':' :: str "text/html" := by decide
  have hlength : str "Content-Length:" ++ decimal length =
      str "Content-Length" ++ ch ':' :: decimal length := by
    rw [show str "Content-Length:" = str "Content-Length" ++ [ch ':'] by decide]
    simp
  have hsplit : createHttpHeader status (str "text/html") length ++ rest =
      statusLine status ++ 13 :: ([] ++ 10 :: (str "Server" ++ ch ':' :: str "MoonWiki 0.2" ++
        [10, 13] ++ (str "Content-Type" ++ ch ':' :: str "text/html" ++ endOfLine ++
          (str "Content-Length" ++ ch ':' :: decimal length ++ endOfLine ++ rest)))) := by
    rw [createHttpHeader_eq, hserver, htype, hlength]
    simp [endOfLine]
  rw [hsplit, headerNames_line (oneLine_statusLine status) (by decide),
    headerNames_line (by decide) (by decide),
    headerNames_field (by decide) (by decide) (by decide) (by decide) (by decide), endOfLine,
    headerNames_field (by decide) (by decide) (by decide) (by decide) (by decide),
    headerNames_field (by decide) (by decide) (oneLine_decimal length) (by decide) (by decide)]
  rfl

theorem headerNames_locationLine {location : Bytes} (h : OneLine location) :
    headerNames (locationLine (some location)) = [str "Location", [], []] := by
  have hstart : str "Location:" = str "Location" ++ [ch ':'] := by decide
  have hfield : headerNames (str "Location" ++ ch ':' :: location ++ endOfLine ++ []) = _ :=
    headerNames_field (by decide) (by decide) h (by decide) (by decide)
  have hend : headerNames [] = [[]] := by simp [headerNames]
  rw [hend] at hfield
  rw [locationLine, hstart]
  simpa using hfield

/-! ### Whole requests -/

/-- No redirection has been asked for. -/
def NotRedirected (s : State) : Prop := s.response.location = none ∧ s.response.status ≠ 303

theorem notRedirected_readBody (h : NotRedirected s) : NotRedirected (readBody s).2 := by
  have hfailed : ∀ {s₁ : State}, s₁.response.location = none → NotRedirected (s₁.failed 500) :=
    fun hlocation => ⟨hlocation, by simp [State.failed]⟩
  cases hlen : s.request.options.get (str "content-length") with
  | none =>
    rw [readBody_none hlen]
    exact h
  | some value =>
    cases hn : toNumber value with
    | none =>
      rw [readBody_error hlen hn]
      exact h
    | some n =>
      rw [readBody_number hlen hn]
      split
      · exact h
      · split
        · exact hfailed h.1
        · exact h

theorem notRedirected_parsed (sock : Socket) : NotRedirected (parsed sock).2 := by
  rcases parseHttpRequest_cases (WikiEngine.new .insertion sock .empty) with
    ⟨⟨socket, request, status, hstatus, hfalse⟩, _⟩ | ⟨socket, header, postData, _, _, hread⟩
  · rw [parsed, hfalse]
    refine ⟨rfl, ?_⟩
    rintro rfl
    simp at hstatus
  · rw [parsed, hread]
    exact notRedirected_readBody ⟨rfl, (by decide : (200 : Nat) ≠ 303)⟩

/-- The page field that gets into the location of the response. -/
def Socket.redirectedPage (sock : Socket) (d : Disk) : Option Bytes :=
  match (parsed sock).1 with
  | .ok true => (parsed sock).2.request.redirectedPage d
  | _ => none

/-- The answer to a POST request is an error or a redirection. -/
theorem answer_post {sock : Socket} (hpost : upper (parsed sock).2.request.method = str "POST")
    {sortByDate : DateSort} {disk : Disk} {result : Bool} {s' : State}
    (h : answer (WikiEngine.new sortByDate sock disk) = (.ok result, s')) :
    result = false ∧ Redirected (sock.redirectedPage disk) s' := by
  obtain ⟨hlocation, hstatus⟩ := notRedirected_parsed sock
  rw [answer, Run.bind_apply, parseHttpRequest_new] at h
  rw [Socket.redirectedPage]
  rcases hparsed : (parsed sock).1 with e | ok
  · rw [hparsed] at h
    cases h
  · rw [hparsed] at h
    cases ok with
    | false =>
      obtain ⟨hresult, rfl⟩ := Prod.mk.inj h
      exact ⟨(Except.ok.inj hresult).symm, .inr ⟨hstatus, hlocation, rfl⟩⟩
    | true =>
      have hne : str "POST" ≠ str "GET" := by decide
      have hmethod : upper ((parsed sock).2.on sortByDate disk [] {}).request.method =
          str "POST" := hpost
      simp only [Bool.not_true, Bool.false_eq_true, ↓reduceIte, Run.bind_apply, Run.get_apply,
        hmethod, methodHandler, hne] at h
      exact handlePostRequest_ok h hlocation

/-- The response that is no error page starts with a header block, too. -/
theorem answer_true {sock : Socket} {sortByDate : DateSort} {disk : Disk}
    (h : answer (WikiEngine.new sortByDate sock disk) = (.ok true, s')) :
    ∃ status contentType length,
      s'.response.header = createHttpHeader status contentType length := by
  rw [answer, Run.bind_apply, parseHttpRequest_new] at h
  rcases hparsed : (parsed sock).1 with e | ok
  · simp [hparsed] at h
  · cases ok with
    | false => simp [hparsed] at h
    | true =>
      simp only [hparsed, Bool.not_true, Bool.false_eq_true, ↓reduceIte, Run.bind_apply,
        Run.get_apply, methodHandler] at h
      split_ifs at h with hget hpost hhead
      · exact handleGetRequest_true h
      · have hfalse := (handlePostRequest_ok h (notRedirected_parsed sock).1).1
        cases hfalse
      · cases h
      · cases h

/-- Every response starts with a header block of `createHttpHeader`. -/
theorem processRequest_header {sortByDate : DateSort} {sock : Socket} {disk : Disk}
    (h : (processRequest sortByDate sock disk).1 = .ok response) :
    ∃ status contentType length rest,
      response.1 = createHttpHeader status contentType length ++ rest := by
  rw [processRequest_eq, Run.bind_apply] at h
  rcases hanswer : answer (WikiEngine.new sortByDate sock disk) with ⟨e | result, s⟩
  · simp [hanswer] at h
  · simp only [hanswer] at h
    rcases hrespond : respond result s with ⟨r, s'⟩
    rw [hrespond] at h
    obtain rfl : r = .ok response := h
    cases result with
    | true =>
      obtain ⟨rfl, hresponse⟩ := respond_true hrespond
      obtain ⟨status, contentType, length, hheader⟩ := answer_true hanswer
      exact ⟨status, contentType, length, _, by rw [hresponse, hheader, List.append_assoc]⟩
    | false =>
      obtain ⟨_, _, hheader, hresponse⟩ := respond_false_header hrespond
      exact ⟨_, _, _, _, by rw [hresponse, hheader, List.append_assoc, List.append_assoc]⟩

theorem exists_response {result : Except LuaError (Bytes × Nat)}
    (h : result.toOption.isSome = true) : ∃ response, result = .ok response := by
  cases result with
  | error e => cases h
  | ok response => exact ⟨response, rfl⟩

/-- No response is an HTTP message: the line of the server ends in LF CR. -/
theorem processRequest_not_httpMessage (sortByDate : DateSort) (sock : Socket) (disk : Disk) :
    ¬ ∃ response, (processRequest sortByDate sock disk).1 = .ok response ∧
      IsHttpMessage response.1 := by
  rintro ⟨response, hok, hmessage⟩
  obtain ⟨status, contentType, length, rest, hresponse⟩ := processRequest_header hok
  rw [hresponse] at hmessage
  exact not_httpMessage _ _ _ _ hmessage

/-- The start page of an empty disk: a response is made, and it is no message. -/
theorem processRequest_start_page_not_httpMessage :
    let sock : Socket := ⟨[str "GET / HTTP/1.1\r\n\r\n"], by decide, fun n => some n.floor.toNat⟩
    ∃ response, (processRequest .insertion sock .empty).1 = .ok response ∧
      ¬ IsHttpMessage response.1 := by
  intro sock
  obtain ⟨response, hok⟩ := exists_response
    (by decide +kernel : (processRequest .insertion sock .empty).1.toOption.isSome = true)
  refine ⟨response, hok, fun hmessage => ?_⟩
  obtain ⟨status, contentType, length, rest, hresponse⟩ := processRequest_header hok
  rw [hresponse] at hmessage
  exact not_httpMessage _ _ _ _ hmessage

/-! ### Two POST requests -/

/-- The header blocks have the same lines with the same names, and no location has more than one
line. -/
structure HeadersAlike (s s' : State) : Prop where
  names : headerNames s.response.header = headerNames s'.response.header
  first : ∀ location, s.response.location = some location → OneLine location
  second : ∀ location, s'.response.location = some location → OneLine location

/-- The page in the location, if there is one, is one line. -/
def LocationSafe (sock : Socket) (d : Disk) : Prop :=
  ∀ page, sock.redirectedPage d = some page → OneLine page

/-- What the response to a POST request tells of the redirection. -/
theorem processRequest_post {sock : Socket} {sortByDate : DateSort} {disk : Disk}
    (hpost : upper (parsed sock).2.request.method = str "POST")
    (h : (processRequest sortByDate sock disk).1 = .ok response) :
    Redirected (sock.redirectedPage disk) (processRequest sortByDate sock disk).2 ∧
      ∃ length, (processRequest sortByDate sock disk).2.response.header =
        createHttpHeader (processRequest sortByDate sock disk).2.response.status (str "text/html")
          length ++ locationLine (processRequest sortByDate sock disk).2.response.location := by
  rw [processRequest_eq, Run.bind_apply] at h ⊢
  rcases hanswer : answer (WikiEngine.new sortByDate sock disk) with ⟨e | result, s⟩
  · simp [hanswer] at h
  · simp only [hanswer] at h ⊢
    obtain ⟨rfl, hredirected⟩ := answer_post hpost hanswer
    rcases hrespond : respond false s with ⟨r, s'⟩
    rw [hrespond] at h
    obtain rfl : r = .ok response := h
    obtain ⟨hstatus, hlocation, hheader, _⟩ := respond_false_header hrespond
    simp only [Redirected, hstatus, hlocation]
    exact ⟨hredirected, _, hheader⟩

theorem Redirected.oneLine_iff {page : Option Bytes} (h : Redirected page s) :
    (∀ location, s.response.location = some location → OneLine location) ↔
      ∀ p, page = some p → OneLine p := by
  rcases h with ⟨_, location, hlocation, hiff⟩ | ⟨_, hlocation, rfl⟩
  · rw [← hiff, hlocation]
    simp
  · simp [hlocation]

/-- Two redirections to one line, or two errors, have the same names. -/
theorem headerNames_redirected {page page' : Option Bytes} (h : Redirected page s)
    (h' : Redirected page' s') (hstatus : s.response.status = s'.response.status)
    (hline : ∀ location, s.response.location = some location → OneLine location)
    (hline' : ∀ location, s'.response.location = some location → OneLine location) :
    headerNames (locationLine s.response.location) =
      headerNames (locationLine s'.response.location) := by
  rcases h with ⟨hs, location, hlocation, _⟩ | ⟨hs, hlocation, _⟩
  · rcases h' with ⟨_, location', hlocation', _⟩ | ⟨hs', _, _⟩
    · rw [hlocation, hlocation', headerNames_locationLine (hline location hlocation),
        headerNames_locationLine (hline' location' hlocation')]
    · exact absurd (hstatus ▸ hs) hs'
  · rcases h' with ⟨hs', _⟩ | ⟨_, hlocation', _⟩
    · exact absurd (hstatus.trans hs') hs
    · rw [hlocation, hlocation']

/-- Two POST requests that get the same status, for instance two that differ in the values of
their fields, are answered with the same header lines and locations of one line exactly when each
page that gets into a location is one line. -/
theorem post_headersAlike_iff {sock sock' : Socket} {sortByDate : DateSort} {disk : Disk}
    {response' : Bytes × Nat} (hpost : upper (parsed sock).2.request.method = str "POST")
    (hpost' : upper (parsed sock').2.request.method = str "POST")
    (h : (processRequest sortByDate sock disk).1 = .ok response)
    (h' : (processRequest sortByDate sock' disk).1 = .ok response')
    (hstatus : (processRequest sortByDate sock disk).2.response.status =
      (processRequest sortByDate sock' disk).2.response.status) :
    HeadersAlike (processRequest sortByDate sock disk).2 (processRequest sortByDate sock' disk).2 ↔
      LocationSafe sock disk ∧ LocationSafe sock' disk := by
  obtain ⟨hredirected, length, hheader⟩ := processRequest_post hpost h
  obtain ⟨hredirected', length', hheader'⟩ := processRequest_post hpost' h'
  rw [LocationSafe, LocationSafe, ← hredirected.oneLine_iff, ← hredirected'.oneLine_iff]
  constructor
  · exact fun halike => ⟨halike.first, halike.second⟩
  · rintro ⟨hline, hline'⟩
    refine ⟨?_, hline, hline'⟩
    rw [hheader, hheader', headerNames_createHttpHeader, headerNames_createHttpHeader, hstatus,
      headerNames_redirected hredirected hredirected' hstatus hline hline']

/-- Editing is cancelled on two pages. -/
theorem post_headersAlike_foo_bar :
    let sock : Socket :=
      ⟨[str "POST / HTTP/1.1\r\nContent-Length: 32\r\n\r\naction=CancelEditing&page=FooBar"],
        by decide, fun n => some n.floor.toNat⟩
    let sock' : Socket :=
      ⟨[str "POST / HTTP/1.1\r\nContent-Length: 32\r\n\r\naction=CancelEditing&page=BarFoo"],
        by decide, fun n => some n.floor.toNat⟩
    HeadersAlike (processRequest .insertion sock .empty).2
      (processRequest .insertion sock' .empty).2 := by
  intro sock sock'
  obtain ⟨response, h⟩ := exists_response
    (by decide +kernel : (processRequest .insertion sock .empty).1.toOption.isSome = true)
  obtain ⟨response', h'⟩ := exists_response
    (by decide +kernel : (processRequest .insertion sock' .empty).1.toOption.isSome = true)
  have hpage : sock.redirectedPage .empty = some (str "FooBar") := by decide +kernel
  have hpage' : sock'.redirectedPage .empty = some (str "BarFoo") := by decide +kernel
  refine (post_headersAlike_iff (by decide +kernel) (by decide +kernel) h h'
    (by decide +kernel)).mpr ⟨?_, ?_⟩
  · rw [LocationSafe, hpage]
    rintro page ⟨⟩
    decide
  · rw [LocationSafe, hpage']
    rintro page ⟨⟩
    decide

/-- A page with an encoded line end brings a header line of its own. -/
theorem post_headers_injected :
    let sock : Socket :=
      ⟨[str "POST / HTTP/1.1\r\nContent-Length: 27\r\n\r\naction=CancelEditing&page=x"],
        by decide, fun n => some n.floor.toNat⟩
    let sock' : Socket :=
      ⟨[str "POST / HTTP/1.1\r\nContent-Length: 36\r\n\r\naction=CancelEditing&page=x%0D%0AA:b"],
        by decide, fun n => some n.floor.toNat⟩
    (processRequest .insertion sock .empty).2.response.status = 303 ∧
    (processRequest .insertion sock' .empty).2.response.status = 303 ∧
    headerNames (processRequest .insertion sock' .empty).2.response.header =
      [str "HTTP/1.1 303 See Other", [], str "Server", [], str "Content-Type", [],
        str "Content-Length", [], str "Location", [], str "A", [], []] ∧
    ¬ HeadersAlike (processRequest .insertion sock .empty).2
      (processRequest .insertion sock' .empty).2 := by
  intro sock sock'
  have hlocation : (processRequest .insertion sock' .empty).2.response.location =
      some (str "/x\r\nA:b") := by decide +kernel
  refine ⟨by decide +kernel, by decide +kernel, by decide +kernel, fun halike => ?_⟩
  exact absurd (halike.second _ hlocation) (by decide)

end MoonWiki
