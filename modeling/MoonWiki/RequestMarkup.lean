import MoonWiki.LuaErrors

/-! The markup of the answer to a GET request, and the parameters of the request. -/
namespace MoonWiki
open Lua

variable {α β : Type}

/-! ### Markup -/

/-- The bytes that close an attribute or delimit a tag. -/
def isMarkup (b : Byte) : Bool := b == ch '<' || b == ch '>' || b == ch '"'

def markup (s : Bytes) : Bytes := s.filter isMarkup

/-- A value with another byte in place of its markup. -/
def harmless (v : Bytes) : Bytes := v.map fun b => if isMarkup b then ch '_' else b

theorem harmless_eq_self {v : Bytes} (h : ∀ b ∈ v, isMarkup b = false) : harmless v = v := by
  have hbyte : ∀ b ∈ v, (if isMarkup b then ch '_' else b) = b := fun b hb => by simp [h b hb]
  exact (List.map_congr_left hbyte).trans (List.map_id' v)

theorem markup_eq_nil_iff {v : Bytes} : markup v = [] ↔ ∀ b ∈ v, isMarkup b = false := by
  simp [markup, List.filter_eq_nil_iff]

/-- The value has markup, or it is left alone. -/
theorem harmless_cases (v : Bytes) :
    harmless v = v ∨ (∃ b ∈ v, isMarkup b = true) ∧ ch '_' ∈ harmless v := by
  by_cases h : ∀ b ∈ v, isMarkup b = false
  · exact .inl (harmless_eq_self h)
  · obtain ⟨b, hb, hmark⟩ : ∃ b ∈ v, isMarkup b = true := by simpa using h
    exact .inr ⟨⟨b, hb, hmark⟩, List.mem_map.mpr ⟨b, hb, by simp [hmark]⟩⟩

theorem harmless_no_markup (v : Bytes) : ∀ b ∈ harmless v, isMarkup b = false := by
  intro b hb
  obtain ⟨c, _, rfl⟩ := List.mem_map.mp hb
  split_ifs with h
  · decide
  · simpa using h

theorem isAlnum_not_isMarkup {b : Byte} (h : isAlnum b = true) : isMarkup b = false := by
  have hne : ∀ c, isAlnum c = false → (b == c) = false := fun c hc =>
    beq_eq_false_iff_ne.mpr (ne_of_test h hc)
  simp [isMarkup, hne (ch '<') (by decide), hne (ch '>') (by decide), hne (ch '"') (by decide)]

/-- A valid title is left alone, and no other value becomes one. -/
theorem isValidTitle_harmless (v : Bytes) :
    isValidTitle (harmless v) = isValidTitle v ∧ (isValidTitle v = true → harmless v = v) := by
  rcases harmless_cases v with h | ⟨⟨b, hb, hmark⟩, hunder⟩
  · exact ⟨by rw [h], fun _ => h⟩
  · have hv : isValidTitle v ≠ true := by
      intro hv
      have halnum := isAlnum_not_isMarkup ((isValidTitle_iff.mp hv).alnum b hb)
      rw [hmark] at halnum
      cases halnum
    have hv' : isValidTitle (harmless v) ≠ true := fun hv =>
      absurd ((isValidTitle_iff.mp hv).alnum _ hunder) (by decide)
    exact ⟨(Bool.eq_false_iff.mpr hv').trans (Bool.eq_false_iff.mpr hv).symm,
      fun h => (hv h).elim⟩

theorem harmless_eq_printable (v : Bytes) :
    harmless v = str "printable" ↔ v = str "printable" := by
  rcases harmless_cases v with h | ⟨⟨b, hb, hmark⟩, hunder⟩
  · rw [h]
  · have hno : ∀ b ∈ str "printable", isMarkup b = false := by decide
    have hunder' : ch '_' ∉ str "printable" := by decide
    refine iff_of_false (fun h => hunder' (h ▸ hunder)) ?_
    rintro rfl
    rw [hno b hb] at hmark
    cases hmark

/-! ### Two requests -/

/-- The same request with harmless parameters. -/
def State.harmless (s : State) : State :=
  { s with request := { s.request with
    parameters := fun k => (s.request.parameters k).map MoonWiki.harmless } }

/-- The action does the same whether or not there is markup in the parameters. -/
def Alike (x : Action α) (s : State) : Prop := x s.harmless = ((x s).1, (x s).2.harmless)

section
variable {s : State}

theorem Alike.bind {x : Action α} {f : α → Action β} (hx : Alike x s)
    (hf : ∀ a s', x s = (.ok a, s') → Alike (f a) s') : Alike (x >>= f) s := by
  rw [Alike, Run.bind_apply, Run.bind_apply, hx]
  rcases hrun : x s with ⟨e | a, s'⟩
  · rfl
  · exact hf a s' hrun

theorem Alike.get_bind {f : State → Action β} (h : f s.harmless = f s) (hf : Alike (f s) s) :
    Alike (Run.get >>= f) s := by
  have heq : (Run.get >>= f) s.harmless = f s.harmless s.harmless := rfl
  rw [Alike, heq, h]
  exact hf

theorem Alike.pure (a : α) : Alike (Pure.pure a : Action α) s := rfl

theorem Alike.error (e : LuaError) : Alike (Run.error e : Action α) s := rfl

theorem alike_setStatus (status : Nat) : Alike (setStatus status) s := rfl

theorem alike_loadPage (title : Option Bytes) : Alike (loadPage title) s := by
  cases title <;> rfl

theorem alike_topicExists (t : Bytes) : Alike (topicExists t) s := by
  rw [Alike, topicExists_apply, topicExists_apply]
  rfl

theorem alike_withFormatter (f : FormatterEnv → FormatterState → α × FormatterState) :
    Alike (withFormatter f) s := rfl

theorem alike_listedTitle (file : FileEntry) : Alike (listedTitle file) s := by
  rw [listedTitle]
  cases getNameWithoutSuffix file.name with
  | none => exact .error _
  | some t => exact .pure _

theorem alike_indexTitles (files : List FileEntry) : Alike (indexTitles files) s := by
  induction files generalizing s with
  | nil => exact .pure _
  | cons file files ih =>
    exact (alike_listedTitle file).bind fun _ _ _ => ih.bind fun _ _ _ => .pure _

theorem alike_recentTitles (i : Nat) (files : List FileEntry) :
    Alike (recentTitles i files) s := by
  induction files generalizing i s with
  | nil => exact .pure _
  | cons file files ih =>
    refine (alike_listedTitle file).bind fun _ _ _ => ?_
    dsimp only
    split_ifs
    · exact .pure _
    · exact (ih (i + 1)).bind fun _ _ _ => .pure _

theorem alike_linkingTitles (pattern : Pattern) (files : List FileEntry) :
    Alike (linkingTitles pattern files) s := by
  induction files generalizing s with
  | nil => exact .pure _
  | cons file files ih =>
    exact (alike_loadPage _).bind fun _ _ _ => ih.bind fun _ _ _ => .pure _

theorem alike_editPage : Alike createSpecialEditPage s := by
  have hget : s.harmless.request.parameters.get (str "page") =
      (s.request.parameters.get (str "page")).map harmless := rfl
  refine .get_bind ?_ ?_
  · rw [hget]
    cases s.request.parameters.get (str "page") with
    | none => rfl
    | some v =>
      obtain ⟨hvalid, hself⟩ := isValidTitle_harmless v
      cases hv : isValidTitle v with
      | false => simp [hvalid, hv]
      | true => simp [hself hv]
  · cases s.request.parameters.get (str "page") with
    | none => exact (alike_setStatus 400).bind fun _ _ _ => .pure _
    | some v =>
      dsimp only
      split_ifs
      · exact (alike_setStatus 400).bind fun _ _ _ => .pure _
      · exact (alike_loadPage _).bind fun _ _ _ => .get_bind rfl (.pure _)

theorem alike_isValidPage (title : Option Bytes) : Alike (isValidPage title) s := by
  cases title with
  | none => exact .pure _
  | some t =>
    rw [isValidPage]
    split_ifs
    · rfl
    · exact .pure _

theorem alike_reverseLink : Alike createSpecialReverseLink s := by
  have hget : s.harmless.request.parameters.get (str "page") =
      (s.request.parameters.get (str "page")).map harmless := rfl
  by_cases hinvalid : ∃ v, s.request.parameters.get (str "page") = some v ∧ isValidTitle v = false
  · obtain ⟨v, hpage, hv⟩ := hinvalid
    have hrun : ∀ s : State, ∀ u, s.request.parameters.get (str "page") = some u →
        isValidTitle u = false → createSpecialReverseLink s =
          (.ok none, { s with response := { s.response with status := 404 } }) := by
      intro s u hu hv
      simp only [createSpecialReverseLink, Run.bind_apply, Run.get_apply, hu, isValidPage, hv]
      rfl
    rw [Alike, hrun s v hpage hv, hrun s.harmless (harmless v) (by rw [hget, hpage]; rfl)
      (by rw [(isValidTitle_harmless v).1, hv])]
    rfl
  · have hself : (s.request.parameters.get (str "page")).map harmless =
        s.request.parameters.get (str "page") := by
      cases hpage : s.request.parameters.get (str "page") with
      | none => rfl
      | some v =>
        have hv : isValidTitle v = true := by
          by_contra hv
          exact hinvalid ⟨v, hpage, by simpa using hv⟩
        rw [Option.map_some, (isValidTitle_harmless v).2 hv]
    refine .get_bind (by rw [hget, hself]) ?_
    refine (alike_isValidPage _).bind fun valid _ _ => ?_
    dsimp only
    split_ifs
    · exact (alike_setStatus 404).bind fun _ _ _ => .pure _
    · split
      · exact .error _
      · exact .get_bind rfl ((alike_linkingTitles _ _).bind fun _ _ _ =>
          (alike_withFormatter _).bind fun _ _ _ => .pure _)

theorem alike_processSpecialPage {special : SpecialPage} (h : special ≠ .searchPage) :
    Alike (processSpecialPage special) s := by
  cases special with
  | editPage => exact alike_editPage
  | indexPage =>
    exact .get_bind rfl ((alike_indexTitles _).bind fun _ _ _ =>
      (alike_withFormatter _).bind fun _ _ _ => .pure _)
  | recentChanges =>
    exact .get_bind rfl ((alike_recentTitles _ _).bind fun _ _ _ =>
      (alike_withFormatter _).bind fun _ _ _ => .pure _)
  | searchPage => exact (h rfl).elim
  | reverseLink => exact alike_reverseLink

theorem view_harmless (s : State) : s.harmless.request.view = s.request.view := by
  have hget : s.harmless.request.parameters.get (str "view") =
      (s.request.parameters.get (str "view")).map harmless := rfl
  rw [Request.view, Request.view, hget]
  cases s.request.parameters.get (str "view") with
  | none => rfl
  | some v => simp [harmless_eq_printable]

theorem alike_setFormatter : Alike setFormatter s := by
  rw [Alike, setFormatter_apply, setFormatter_apply, State.viewed, view_harmless]
  rfl

theorem alike_wikiPage
    (h : specialPageCreator (urlTitle s.request.url) ≠ some .searchPage) : Alike wikiPage s := by
  refine alike_setFormatter.bind fun _ s' hs' => ?_
  rw [setFormatter_apply] at hs'
  obtain ⟨_, rfl⟩ := Prod.mk.inj hs'
  have hurl : ∀ s : State, s.harmless.request.url = s.request.url := fun _ => rfl
  refine .get_bind (by simp only [hurl]) ?_
  dsimp only
  split_ifs
  · exact .pure _
  · split
    · rename_i special hspecial
      exact alike_processSpecialPage fun hsearch => h (hsearch ▸ hspecial)
    · refine (alike_topicExists _).bind fun found _ _ => ?_
      split_ifs
      · exact (alike_loadPage _).bind fun _ _ _ =>
          (alike_withFormatter _).bind fun _ _ _ => .pure _
      · exact .get_bind rfl (.pure _)

theorem alike_respond (result : Bool) : Alike (respond result) s := by
  have hend : ∀ s, Alike (do
      let response := (← Run.get).response
      let responseData := response.header ++ str "\r\n" ++ response.content
      return (responseData, responseData.length)) s := fun s => .get_bind rfl (.pure _)
  have herror : Alike prepareErrorResponse s := by
    refine .get_bind rfl (.bind ?_ fun _ _ _ => ?_)
    · rw [createHttpErrorPage]
      split
      · exact .error _
      · exact .pure _
    · rfl
  cases result with
  | true => exact hend s
  | false => exact herror.bind fun _ _ _ => hend _

theorem alike_answerPage {x : Action (Option Bytes)} {f : Bytes → Action Bool} (hx : Alike x s)
    (hf : ∀ page s, Alike (f page) s) :
    Alike (x >>= fun page => match page with
      | none => return false
      | some page => f page) s := by
  refine hx.bind fun page s' _ => ?_
  cases page with
  | none => exact .pure _
  | some page => exact hf page s'

theorem alike_processRawFile (fileName : Bytes) : Alike (processRawFile fileName) s := by
  refine .bind rfl fun file _ _ => ?_
  cases file with
  | none => exact (alike_setStatus 404).bind fun _ _ _ => .pure _
  | some file => exact .bind rfl fun _ _ _ => .pure _

theorem alike_handleGetRequest
    (h : specialPageCreator (urlTitle s.request.url) ≠ some .searchPage) :
    Alike handleGetRequest s := by
  have hanswer : ∀ (page : Bytes) (s : State), Alike (do
      Run.modify fun s : State => { s with response := { s.response with
        header := createHttpHeader s.response.status s.response.contentType page.length
        content := page } }
      return true) s := fun _ _ => .bind rfl fun _ _ _ => .pure _
  have hurl : ∀ s : State, s.harmless.request.url = s.request.url := fun _ => rfl
  refine (alike_wikiPage h).bind fun page s' _ => ?_
  cases page with
  | some page => exact alike_answerPage (.pure _) hanswer
  | none =>
    refine .get_bind (by simp only [hurl]) ?_
    exact alike_answerPage (alike_processRawFile _) hanswer

end

/-! ### The search page -/

/-- The value is printed at one place of the text. -/
def Around (f : Bytes → Bytes) : Prop := ∃ before after, ∀ v, f v = before ++ formatS v ++ after

theorem Around.element {f : Bytes → Bytes} (h : Around f) (field : String)
    (attrs : List (String × Bytes)) (xs ys : List Bytes) :
    Around fun v => htk field attrs (xs ++ f v :: ys) := by
  obtain ⟨before, after, hf⟩ := h
  refine ⟨str "<" ++ str field ++ (attrs.flatMap fun a => attr a.1 a.2) ++ str ">" ++
    xs.flatten ++ before, after ++ ys.flatten ++ (str "</" ++ str field ++ str ">"), fun v => ?_⟩
  simp [htk_eq, hf]

theorem around_attribute (field : String) (attrs : List (String × Bytes)) (name : String) :
    Around fun v => htk field (attrs ++ [(name, v)]) [] := by
  refine ⟨str "<" ++ str field ++ (attrs.flatMap fun a => attr a.1 a.2) ++
    (str " " ++ formatS (str name) ++ str "=\""),
    str "\">" ++ if field ∉ emptyTags then str "</" ++ str field ++ str ">" else [], fun v => ?_⟩
  have hclose : str "\">" = str "\"" ++ str ">" := by decide
  simp [htk_eq, attr, hclose]

theorem around_searchPageHtml (cls : FormatterClass) : Around (searchPageHtml cls) := by
  have hinput := around_attribute "INPUT"
    [("type", str "text"), ("name", str "search"), ("size", str "40")] "value"
  have hrow := (hinput.element "TD" [] [] [str "&nbsp;", submitButton " Search "]).element "TR" []
    [htk "TD" [] [str "Find text:"]] []
  have htable := fun rows => hrow.element "TABLE"
    [("cellspacing", str "2"), ("cellpadding", str "0"), ("border", str "0")] [] rows
  have hbody := fun rows => ((htable rows).element "FORM"
    [("method", str "POST"), ("action", str "SearchPage")] [] []).element "BODY" []
      [specialPageHeader cls (str "Search")] [htk "HR" [] [], []]
  exact (hbody _).element "HTML" [] [createHtmlHeader (str "Search")] []

/-- Where a value is printed, its markup gets into the text. -/
theorem Around.markup_iff {f : Bytes → Bytes} (h : Around f) (v : Bytes) :
    markup (f v) = markup (f (harmless v)) ↔ markup (formatS v) = [] := by
  obtain ⟨before, after, hf⟩ := h
  have hnone : markup (formatS (harmless v)) = [] := by
    rw [markup_eq_nil_iff]
    intro b hb
    refine harmless_no_markup v b ?_
    rw [formatS] at hb
    split_ifs at hb
    · exact hb
    · exact (List.takeWhile_prefix _).subset hb
  rw [hf, hf, markup, markup]
  simp only [List.filter_append]
  rw [← markup, ← markup, ← markup, ← markup, hnone]
  simp

/-! ### The answer -/

/-- The content of the response to a GET request. -/
def getContent (s : State) : Bytes := ((handleGetRequest >>= respond) s).2.response.content

/-- It is the content of the response to a connection that sends the request. -/
theorem processRequest_getContent {sock : Socket} (hok : (parsed sock).1 = .ok true)
    (hget : upper (parsed sock).2.request.method = str "GET") (sortByDate : DateSort)
    (disk : Disk) :
    (processRequest sortByDate sock disk).2.response.content =
      getContent ((parsed sock).2.on sortByDate disk [] {}) := by
  have hmethod : upper ((parsed sock).2.on sortByDate disk [] {}).request.method = str "GET" := hget
  have hanswer : answer (WikiEngine.new sortByDate sock disk) =
      handleGetRequest ((parsed sock).2.on sortByDate disk [] {}) := by
    rw [answer, Run.bind_apply, parseHttpRequest_new, hok]
    simp only [Bool.not_true, Bool.false_eq_true, ↓reduceIte, Run.bind_apply, Run.get_apply,
      hmethod, methodHandler]
  rw [processRequest_eq, getContent, Run.bind_apply, Run.bind_apply, hanswer]

/-- The text to search for. -/
def Request.search (r : Request) : Bytes := (r.parameters.get (str "search")).getD []

theorem getContent_search {s : State}
    (h : specialPageCreator (urlTitle s.request.url) = some .searchPage) :
    getContent s = searchPageHtml s.request.view s.request.search := by
  have hpage : wikiPage s =
      (.ok (some (searchPageHtml s.request.view s.request.search)), s.viewed) := by
    rw [wikiPage_special (isValidTitle_of_special h) h]
    rfl
  rw [getContent, Run.bind_apply, handleGetRequest, Run.bind_ok hpage]
  rfl

end MoonWiki
