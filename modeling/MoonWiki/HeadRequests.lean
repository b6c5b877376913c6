import MoonWiki.RawFiles

/-! HEAD requests: what the response to one would have to be, and that there is none. -/
namespace MoonWiki
open Lua

variable {s s' : State} {text : Bytes} {sortByDate : DateSort} {sock : Socket} {disk : Disk}

/-! ### Header block and body -/

/-- The header block up to the first empty line, and the body after it. -/
def splitMessage : Bytes → Option (Bytes × Bytes)
  | [] => none
  | b :: rest =>
    if (endOfLine ++ endOfLine).isPrefixOf (b :: rest) then some (endOfLine, rest.drop 3)
    else (splitMessage rest).map fun (header, body) => (b :: header, body)

/-- What stands after an empty line belongs to the body. -/
theorem splitMessage_append (u v : Bytes) :
    ∃ header w, splitMessage (u ++ (endOfLine ++ endOfLine ++ v)) = some (header, w ++ v) := by
  induction u with
  | nil =>
    have hprefix : (endOfLine ++ endOfLine).isPrefixOf (endOfLine ++ endOfLine ++ v) = true := by
      rw [List.isPrefixOf_iff_prefix]
      exact List.prefix_append _ _
    have hcons : endOfLine ++ endOfLine ++ v = 13 :: ([10, 13, 10] ++ v) := rfl
    refine ⟨endOfLine, [], ?_⟩
    rw [hcons] at hprefix
    rw [List.nil_append, hcons, splitMessage, if_pos hprefix]
    rfl
  | cons b u ih =>
    obtain ⟨header, w, hrest⟩ := ih
    rw [List.cons_append, splitMessage]
    by_cases hprefix : (endOfLine ++ endOfLine).isPrefixOf
        (b :: (u ++ (endOfLine ++ endOfLine ++ v))) = true
    · refine ⟨endOfLine, (u ++ (endOfLine ++ endOfLine)).drop 3, ?_⟩
      have hlength : 3 ≤ (u ++ (endOfLine ++ endOfLine)).length := by
        simp [endOfLine]
      rw [if_pos hprefix, ← List.append_assoc u, List.drop_append_of_le_length hlength]
    · refine ⟨b :: header, w, ?_⟩
      rw [if_neg hprefix, hrest]
      rfl

/-! ### No response is without a body -/

theorem createHttpHeader_end (status : Nat) (contentType : Bytes) (length : Nat) :
    ∃ u, createHttpHeader status contentType length = u ++ endOfLine := by
  rw [createHttpHeader_eq]
  simp only [← List.append_assoc]
  exact ⟨_, rfl⟩

theorem header_end (status : Nat) (contentType : Bytes) (length : Nat)
    (location : Option Bytes) :
    ∃ u, createHttpHeader status contentType length ++ locationLine location = u ++ endOfLine := by
  cases location with
  | none =>
    rw [locationLine, List.append_nil]
    exact createHttpHeader_end status contentType length
  | some location =>
    rw [locationLine, ← List.append_assoc]
    exact ⟨_, rfl⟩

theorem Titled.ne_nil {t html : Bytes} (h : Titled t html) : html ≠ [] := by
  obtain ⟨rest, rfl⟩ := h
  simp [show str "<HTML><HEAD><TITLE>" ≠ [] by decide]

theorem wikiPage_ne_nil {html : Bytes} (h : (wikiPage s).1 = .ok (some html)) : html ≠ [] := by
  obtain ⟨_, ⟨special, _, htitle⟩ | ⟨_, htitle | htitle⟩⟩ := wikiPage_titled h
  · exact htitle.ne_nil
  · exact htitle.ne_nil
  · exact htitle.ne_nil

theorem processRawFile_ne_nil {fileName file : Bytes}
    (h : processRawFile fileName s = (.ok (some file), s')) : file ≠ [] := by
  cases hfile : s.disk.read (serverConfig.rootDir ++ fileName) with
  | none =>
    obtain ⟨opened, hrun⟩ := processRawFile_none hfile
    rw [hrun] at h
    cases h
  | some content =>
    obtain ⟨opened, hrun⟩ := processRawFile_some hfile
    rw [hrun] at h
    have hresult := Except.ok.inj (Prod.mk.inj h).1
    split at hresult
    · cases hresult
    · rename_i hne
      exact Option.some.inj hresult ▸ hne

theorem handleGetRequest_content (h : handleGetRequest s = (.ok true, s')) :
    s'.response.content ≠ [] := by
  rcases hpage : wikiPage s with ⟨e | page, s₁⟩
  · simp [handleGetRequest, Run.bind_apply, hpage] at h
  · cases page with
    | some page =>
      simp only [handleGetRequest, Run.bind_apply, hpage, Run.pure_apply, Run.modify_apply] at h
      rw [← (Prod.mk.inj h).2]
      exact wikiPage_ne_nil (s := s) (by rw [hpage])
    | none =>
      rcases hraw : processRawFile s₁.request.url s₁ with ⟨e | file, s₂⟩
      · simp [handleGetRequest, Run.bind_apply, hpage, hraw] at h
      · cases file with
        | none =>
          rw [fallback_none hpage hraw] at h
          cases h
        | some file =>
          rw [fallback_some hpage hraw] at h
          rw [← (Prod.mk.inj h).2]
          exact processRawFile_ne_nil hraw

theorem answer_content (h : answer (WikiEngine.new sortByDate sock disk) = (.ok true, s')) :
    s'.response.content ≠ [] := by
  rw [answer, Run.bind_apply, parseHttpRequest_new] at h
  rcases hparsed : (parsed sock).1 with e | ok
  · simp [hparsed] at h
  · cases ok with
    | false => simp [hparsed] at h
    | true =>
      simp only [hparsed, Bool.not_true, Bool.false_eq_true, ↓reduceIte, Run.bind_apply,
        Run.get_apply, methodHandler] at h
      split_ifs at h with hget hpost hhead
      · exact handleGetRequest_content h
      · have hfalse := (handlePostRequest_ok h (notRedirected_parsed sock).1).1
        cases hfalse
      · cases h
      · cases h

theorem respond_false_content {response : Bytes × Nat} (h : respond false s = (.ok response, s')) :
    s'.response.content ≠ [] := by
  rw [respond] at h
  cases htext : httpErrors s.response.status with
  | none => simp [prepareErrorResponse, createHttpErrorPage, Run.bind_apply, htext] at h
  | some statusString =>
    have hknown : (httpErrors s.response.status).isSome := by simp [htext]
    have hpage := createHttpErrorPage_apply hknown s
    simp only [Bool.not_false, ↓reduceIte, prepareErrorResponse, Run.bind_apply, Run.get_apply,
      hpage, Run.modify_apply] at h
    rw [← (Prod.mk.inj h).2]
    exact errorPageHtml_ne_nil _

/-- Every response has a body after an empty line. -/
theorem Responds.body (h : Responds sortByDate sock disk text) :
    ∃ u v, text = u ++ (endOfLine ++ endOfLine ++ v) ∧ v ≠ [] := by
  have hend : str "\r\n" = endOfLine := by decide
  rw [Responds, processRequest_eq, Run.bind_apply] at h
  rcases hanswer : answer (WikiEngine.new sortByDate sock disk) with ⟨e | result, s⟩
  · simp [hanswer] at h
  · simp only [hanswer] at h
    rcases hrespond : respond result s with ⟨r, s'⟩
    rw [hrespond] at h
    obtain rfl : r = .ok (text, text.length) := h
    cases result with
    | true =>
      obtain ⟨rfl, htext⟩ := respond_true hrespond
      change text = _ at htext
      obtain ⟨status, contentType, length, hheader⟩ := answer_true hanswer
      obtain ⟨u, hu⟩ := createHttpHeader_end status contentType length
      refine ⟨u, s'.response.content, ?_, answer_content hanswer⟩
      rw [htext, hheader, hu, hend]
      simp only [List.append_assoc]
    | false =>
      obtain ⟨_, _, hheader, htext⟩ := respond_false_header hrespond
      change text = _ at htext
      obtain ⟨u, hu⟩ := header_end s.response.status (str "text/html")
        s'.response.content.length s.response.location
      refine ⟨u, s'.response.content, ?_, respond_false_content hrespond⟩
      rw [htext, hheader, hu, hend]
      simp only [List.append_assoc]

/-! ### HEAD and GET -/

/-- The response to the HEAD request is the header block of the response to the GET request, with
no body. -/
def HeadAgrees (sortByDate : DateSort) (disk : Disk) (head get : Socket) : Prop :=
  ∃ text text' header body,
    Responds sortByDate get disk text ∧ splitMessage text = some (header, body) ∧
      Responds sortByDate head disk text' ∧ splitMessage text' = some (header, [])

theorem not_headAgrees (sortByDate : DateSort) (disk : Disk) (head get : Socket) :
    ¬ HeadAgrees sortByDate disk head get := by
  rintro ⟨_, text', header, _, _, _, hhead, hsplit⟩
  obtain ⟨u, v, rfl, hne⟩ := hhead.body
  obtain ⟨header', w, hbody⟩ := splitMessage_append u v
  have hnil := (Prod.mk.inj (Option.some.inj (hsplit.symm.trans hbody))).2
  exact hne (List.append_eq_nil_iff.mp hnil.symm).2

theorem answer_head (hok : (parsed sock).1 = .ok true)
    (hhead : upper (parsed sock).2.request.method = str "HEAD") :
    (processRequest sortByDate sock disk).1 = .error .callNil := by
  have hmethod : upper ((parsed sock).2.on sortByDate disk [] {}).request.method = str "HEAD" :=
    hhead
  have hne : str "HEAD" ≠ str "GET" ∧ str "HEAD" ≠ str "POST" := by decide
  rw [processRequest_eq, Run.bind_apply, answer, Run.bind_apply, parseHttpRequest_new, hok]
  simp only [Bool.not_true, Bool.false_eq_true, ↓reduceIte, Run.bind_apply, Run.get_apply, hmethod,
    methodHandler, hne]
  rfl

/-- No HEAD request agrees with a GET request, whatever is sent on the two connections: one that is
parsed ends in a call of a method that is missing, and an error page has a body. -/
theorem headRequest_never_agrees (sortByDate : DateSort) (disk : Disk) (head get : Socket) :
    ¬ HeadAgrees sortByDate disk head get ∧
      ((parsed head).1 = .ok true ∧ upper (parsed head).2.request.method = str "HEAD" →
        (processRequest sortByDate head disk).1 = .error .callNil) :=
  ⟨not_headAgrees sortByDate disk head get, fun h => answer_head h.1 h.2⟩

/-- A connection on which the header of this URL is asked for. -/
def Socket.asking (url : String) : Socket :=
  ⟨[str "HEAD " ++ str url ++ str " HTTP/1.1\r\n\r\n"],
    by simp [show str "HEAD " ≠ [] by decide], fun n => some n.floor.toNat⟩

theorem headRequest_start_page :
    (processRequest .insertion (.asking "/") .empty).1 = .error .callNil :=
  (headRequest_never_agrees .insertion .empty (.asking "/") (.getting "/")).2 (by decide)

theorem responds_of_ok {response : Bytes × Nat}
    (h : (processRequest sortByDate sock disk).1 = .ok response) :
    Responds sortByDate sock disk response.1 := by
  rw [Responds, h]
  rw [processRequest, Run.bind_apply] at h
  rcases hrun : handleRequest (WikiEngine.new sortByDate sock disk) with ⟨e | text, s'⟩
  · rw [hrun] at h
    cases h
  · rw [hrun] at h
    obtain rfl := Except.ok.inj h
    rfl

/-- The start page: there is a response to GET, and none to HEAD. -/
theorem headRequest_no_response :
    (∃ text, Responds .insertion (.getting "/") .empty text) ∧
      ¬ HeadAgrees .insertion .empty (.asking "/") (.getting "/") := by
  obtain ⟨response, hresponse⟩ : ∃ response,
      (processRequest .insertion (.getting "/") .empty).1 = .ok response :=
    exists_response (by decide)
  exact ⟨⟨response.1, responds_of_ok hresponse⟩, not_headAgrees _ _ _ _⟩

end MoonWiki
