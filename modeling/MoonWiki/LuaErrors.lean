import MoonWiki.ServedFiles

/-! Which requests end in a Lua error, at which `doCall` stops the server. -/
namespace MoonWiki
open Lua

/-! ### Actions that raise an error -/

/-- From this state the action ends in a Lua error. -/
def Raises {α : Type} (x : Action α) (s : State) : Prop := ∃ e, (x s).1 = .error e

section
variable {α β : Type} {s s' : State}

theorem not_raises_of_ok {x : Action α} {a : α} (h : x s = (.ok a, s')) : ¬ Raises x s := by
  rintro ⟨e, he⟩
  rw [h] at he
  cases he

theorem raises_error {x : Action α} {e : LuaError} (h : x s = (.error e, s')) : Raises x s :=
  ⟨e, by rw [h]⟩

theorem not_raises_pure (a : α) : ¬ Raises (pure a : Action α) s := not_raises_of_ok rfl

theorem raises_bind_ok {x : Action α} {f : α → Action β} {a : α} (h : x s = (.ok a, s')) :
    Raises (x >>= f) s ↔ Raises (f a) s' := by
  rw [Raises, Raises, Run.bind_ok h]

theorem raises_bind_error {x : Action α} {f : α → Action β} (h : Raises x s) :
    Raises (x >>= f) s := by
  obtain ⟨e, he⟩ := h
  rcases hx : x s with ⟨e' | a, s'⟩
  · exact ⟨e', by rw [Run.bind_error hx]⟩
  · rw [hx] at he
    cases he

/-- After an action that may fail comes one that never does. -/
theorem raises_bind_of_never {x : Action α} {f : α → Action β}
    (h : ∀ a s', x s = (.ok a, s') → ¬ Raises (f a) s') : Raises (x >>= f) s ↔ Raises x s := by
  refine ⟨?_, raises_bind_error⟩
  rcases hx : x s with ⟨e | a, s'⟩
  · exact fun _ => raises_error hx
  · intro hf
    exact (h a s' hx ((raises_bind_ok hx).mp hf)).elim

theorem not_raises_withFormatter (f : FormatterEnv → FormatterState → α × FormatterState) :
    ¬ Raises (withFormatter f) s := not_raises_of_ok rfl

end

/-! ### Special pages -/

/-- The file has a name that gives no title. -/
def LacksTitle (file : FileEntry) : Prop := getNameWithoutSuffix file.name = none

/-- No page file lacks a title, whatever stands before the suffix. -/
theorem not_lacksTitle_of_suffix {file : FileEntry} (h : serverConfig.suffix <:+ file.name) :
    ¬ LacksTitle file := by
  obtain ⟨u, hu⟩ := h
  have hanchor : (pat "(%w+).%w+$").anchor = false := by decide
  have hhere : (matchHere (pat "(%w+).%w+$").items (str "txt")).isSome := by decide
  have hname : file.name = (u ++ str ".") ++ str "txt" := by
    have hsuffix : serverConfig.suffix = str "." ++ str "txt" := by decide
    rw [← hu, hsuffix, List.append_assoc]
  obtain ⟨⟨before, m⟩, hfind⟩ := Option.isSome_iff_exists.mp
    (findFrom_isSome.mpr ⟨u ++ str ".", str "txt", hname, hhere⟩)
  obtain ⟨v, _, hm⟩ := findFrom_sound hfind
  rw [LacksTitle, getNameWithoutSuffix, capture?, find, hanchor, if_neg (by simp), hfind]
  obtain ⟨⟨rest, caps⟩, _, rfl⟩ := Option.map_eq_some_iff.mp hm
  cases caps with
  | nil => simp [pushCaptures]
  | cons c caps => simp [pushCaptures]

theorem raises_listedTitle {file : FileEntry} {s : State} :
    Raises (listedTitle file) s ↔ LacksTitle file := by
  rw [listedTitle, LacksTitle]
  cases getNameWithoutSuffix file.name with
  | none => exact ⟨fun _ => rfl, fun _ => raises_error rfl⟩
  | some t =>
    constructor
    · exact fun h => (not_raises_of_ok rfl h).elim
    · exact fun h => by cases h

theorem listedTitle_ok {file : FileEntry} {s s' : State} {t : Option Bytes}
    (h : listedTitle file s = (.ok t, s')) : s' = s := by
  rw [listedTitle] at h
  cases hname : getNameWithoutSuffix file.name with
  | none =>
    rw [hname] at h
    cases h
  | some name =>
    rw [hname] at h
    exact (Prod.mk.inj h).2.symm

theorem raises_indexTitles {files : List FileEntry} {s : State} :
    Raises (indexTitles files) s ↔ ∃ file ∈ files, LacksTitle file := by
  induction files with
  | nil => exact ⟨fun h => (not_raises_pure _ h).elim, by simp⟩
  | cons file files ih =>
    rw [List.exists_mem_cons_iff, ← ih, ← raises_listedTitle (s := s), indexTitles]
    constructor
    · intro h
      rcases hfile : listedTitle file s with ⟨e | t, s'⟩
      · exact .inl (raises_error hfile)
      · obtain rfl := listedTitle_ok hfile
        rw [raises_bind_ok hfile, raises_bind_of_never fun _ _ _ => not_raises_pure _] at h
        exact .inr h
    · rintro (h | h)
      · exact raises_bind_error h
      · rcases hfile : listedTitle file s with ⟨e | t, s'⟩
        · exact raises_bind_error (raises_error hfile)
        · obtain rfl := listedTitle_ok hfile
          rw [raises_bind_ok hfile]
          exact raises_bind_error h

/-- The loop looks at the files up to the last one that is listed. -/
theorem raises_recentTitles {files : List FileEntry} {i : Nat} {s : State}
    (hi : i ≤ serverConfig.recentChangesListSize) :
    Raises (recentTitles i files) s ↔
      ∃ file ∈ files.take (serverConfig.recentChangesListSize + 1 - i), LacksTitle file := by
  induction files generalizing i with
  | nil => exact ⟨fun h => (not_raises_pure _ h).elim, by simp⟩
  | cons file files ih =>
    obtain ⟨n, hn⟩ : ∃ n, serverConfig.recentChangesListSize = i + n := Nat.exists_eq_add_of_le hi
    have htake : serverConfig.recentChangesListSize + 1 - i = n + 1 := by omega
    rw [htake, List.take_succ_cons, List.exists_mem_cons_iff, ← raises_listedTitle (s := s),
      recentTitles]
    rcases hfile : listedTitle file s with ⟨e | t, s'⟩
    · have hraises := raises_error hfile
      exact ⟨fun _ => .inl hraises, fun _ => raises_bind_error hraises⟩
    · obtain rfl := listedTitle_ok hfile
      rw [raises_bind_ok hfile, or_iff_right (not_raises_of_ok hfile)]
      by_cases hlast : i = serverConfig.recentChangesListSize
      · obtain rfl : n = 0 := by omega
        rw [if_pos hlast]
        exact ⟨fun h => (not_raises_pure _ h).elim, by simp⟩
      · have hrest : serverConfig.recentChangesListSize + 1 - (i + 1) = n := by omega
        rw [if_neg hlast, raises_bind_of_never fun _ _ _ => not_raises_pure _,
          ih (by omega), hrest]

/-- A page whose name gives no title cannot be loaded. -/
theorem raises_linkingTitles {pattern : Pattern} {files : List FileEntry} {s : State} :
    Raises (linkingTitles pattern files) s ↔ ∃ file ∈ files, LacksTitle file := by
  induction files generalizing s with
  | nil => exact ⟨fun h => (not_raises_pure _ h).elim, by simp⟩
  | cons file files ih =>
    rw [List.exists_mem_cons_iff, linkingTitles, LacksTitle]
    dsimp only
    cases getNameWithoutSuffix file.name with
    | none => exact ⟨fun _ => .inl rfl, fun _ => raises_bind_error (raises_error rfl)⟩
    | some t =>
      rw [raises_bind_ok (loadPage_apply t s), raises_bind_of_never fun _ _ _ => not_raises_pure _,
        ih, or_iff_right (by simp)]

theorem not_raises_specialPage {f : FormatterEnv → FormatterState → Bytes × FormatterState}
    {g : Bytes → Bytes} {s : State} :
    ¬ Raises (do return some (g (← withFormatter f))) s := by
  rw [raises_bind_of_never fun _ _ _ => not_raises_pure _]
  exact not_raises_withFormatter f

theorem parseQuant_alnum {t rest : Bytes} (ht : ∀ b ∈ t, isAlnum b) :
    parseQuant (t ++ ch '[' :: rest) = (.one, t ++ ch '[' :: rest) := by
  cases t with
  | nil => rfl
  | cons c t =>
    have hc : ∀ d, isAlnum d = false → c ≠ d := fun d hd => ne_of_test (ht c (by simp)) hd
    have hquant : c ≠ ch '?' ∧ c ≠ ch '*' ∧ c ≠ ch '+' ∧ c ≠ ch '-' :=
      ⟨hc _ (by decide), hc _ (by decide), hc _ (by decide), hc _ (by decide)⟩
    simp [parseQuant, hquant]

/-- Letters and digits stand for themselves in a pattern. -/
theorem parseItems_alnum {t rest : Bytes} {fuel : Nat} {is : List Item} (ht : ∀ b ∈ t, isAlnum b)
    (hrest : parseItems fuel 0 (ch '[' :: rest) = some is) :
    parseItems (fuel + t.length) 0 (t ++ ch '[' :: rest) = some (literalItems t ++ is) := by
  induction t with
  | nil => exact hrest
  | cons b t ih =>
    have hd : ∀ d, isAlnum d = false → b ≠ d := fun d hd => ne_of_test (ht b (by simp)) hd
    have hb : b ≠ ch '(' ∧ b ≠ ch ')' ∧ b ≠ ch '$' ∧ b ≠ ch '.' ∧ b ≠ ch '%' ∧ b ≠ ch '[' :=
      ⟨hd _ (by decide), hd _ (by decide), hd _ (by decide), hd _ (by decide), hd _ (by decide),
        hd _ (by decide)⟩
    have ht' : ∀ c ∈ t, isAlnum c := fun c hc => ht c (by simp [hc])
    rw [List.length_cons, ← Nat.add_assoc, List.cons_append, parseItems]
    simp [hb, parseSingle, parseQuant_alnum ht', ih ht', literalItems]

/-- The pattern that looks for links to a page. -/
def linkPattern (t : Bytes) : Pattern :=
  ⟨false, .single (.set true [.cls (ch 'w')]) .one ::
    (literalItems t ++ [.single (.set true [.cls (ch 'w')]) .one])⟩

theorem parse_linkPattern {t : Bytes} (ht : ∀ b ∈ t, isAlnum b) :
    parse (str "[^%w]" ++ t ++ str "[^%w]") = some (linkPattern t) := by
  have hset : str "[^%w]" = [ch '[', ch '^', ch '%', ch 'w', ch ']'] := by decide
  have hend : parseItems 10 0 [ch '[', ch '^', ch '%', ch 'w', ch ']'] =
      some [.single (.set true [.cls (ch 'w')]) .one] := by
    decide
  have hitems := parseItems_alnum ht hend
  have hquant : parseQuant (t ++ [ch '[', ch '^', ch '%', ch 'w', ch ']']) = _ :=
    parseQuant_alnum ht
  have hsingle : ∀ rest, parseSingle (ch '[') (ch '^' :: ch '%' :: ch 'w' :: ch ']' :: rest) =
      some (.set true [.cls (ch 'w')], rest) := by
    intro rest
    simp [parseSingle, parseSet, ch]
  have hparse : ∀ s, parse (ch '[' :: s) =
      (parseItems (s.length + 1 + 1) 0 (ch '[' :: s)).map (⟨false, ·⟩) := fun _ => rfl
  have hother : ch '[' ≠ ch '(' ∧ ch '[' ≠ ch ')' ∧ ch '[' ≠ ch '$' := by decide
  have hlen : ([ch '^', ch '%', ch 'w', ch ']'] ++ t ++ str "[^%w]").length + 1 =
      10 + t.length := by
    simp [hset]
    omega
  rw [hset, List.cons_append, List.cons_append, ← hset, hparse, hlen, parseItems]
  simp [hset, hother, hsingle, hquant, hitems, linkPattern]

/-- The requests of which a special page ends in an error: a file without a title is listed. -/
def SpecialPage.Fails (r : Request) (sortByDate : DateSort) (d : Disk) : SpecialPage → Prop
  | .indexPage => ∃ file ∈ pageFiles d, LacksTitle file
  | .recentChanges =>
    ∃ file ∈ (sortByDate.run (pageFiles d)).take serverConfig.recentChangesListSize,
      LacksTitle file
  | .reverseLink =>
    SpecialPage.reverseLink.isNil r d = false ∧ ∃ file ∈ pageFiles d, LacksTitle file
  | _ => False

theorem raises_editPage {s : State} : ¬ Raises createSpecialEditPage s := by
  rw [createSpecialEditPage, raises_bind_ok (Run.get_apply s)]
  cases s.request.parameters.get (str "page") with
  | none => exact not_raises_of_ok rfl
  | some pageName =>
    cases hv : isValidTitle pageName with
    | false =>
      simp only [hv, Bool.not_false, ↓reduceIte]
      exact not_raises_of_ok rfl
    | true =>
      simp only [hv, Bool.not_true, Bool.false_eq_true, ↓reduceIte]
      exact not_raises_of_ok rfl

theorem raises_reverseLink {s : State} :
    Raises createSpecialReverseLink s ↔
      SpecialPage.reverseLink.Fails s.request s.sortByDate s.disk := by
  rw [createSpecialReverseLink, raises_bind_ok (Run.get_apply s)]
  simp only [SpecialPage.Fails, SpecialPage.isNil]
  cases s.request.parameters.get (str "page") with
  | none => exact iff_of_false (not_raises_of_ok rfl) (by simp)
  | some t =>
    cases hv : isValidTitle t with
    | false =>
      have hpage : isValidPage (some t) s = (.ok false, s) := by simp [isValidPage, hv]
      rw [raises_bind_ok hpage]
      exact iff_of_false (not_raises_of_ok rfl) (by simp [hv])
    | true =>
      have hpage : isValidPage (some t) s = (.ok (WikiStore.topicExists s.disk t),
          { s with opened := s.opened ++ [(.read, pagePath t)] }) := by
        simp [isValidPage, hv, WikiStore.loadPage, WikiStore.topicExists]
      rw [raises_bind_ok hpage]
      cases hexists : WikiStore.topicExists s.disk t with
      | false => exact iff_of_false (not_raises_of_ok rfl) (by simp [hexists])
      | true =>
        have hpattern := parse_linkPattern (isValidTitle_iff.mp hv).alnum
        have htitle : (some t).getD [] = t := rfl
        simp only [Bool.not_true, Bool.false_eq_true, ↓reduceIte, htitle, hpattern]
        rw [raises_bind_ok (Run.get_apply _),
          raises_bind_of_never fun _ _ _ => not_raises_specialPage, raises_linkingTitles]
        simp [hv, hexists]

theorem raises_processSpecialPage (special : SpecialPage) (s : State) :
    Raises (processSpecialPage special) s ↔ special.Fails s.request s.sortByDate s.disk := by
  cases special with
  | editPage => exact iff_of_false raises_editPage id
  | indexPage =>
    rw [processSpecialPage, createSpecialIndexPage, raises_bind_ok (Run.get_apply s),
      raises_bind_of_never fun _ _ _ => not_raises_specialPage]
    exact raises_indexTitles
  | recentChanges =>
    rw [processSpecialPage, createSpecialRecentChanges, raises_bind_ok (Run.get_apply s),
      raises_bind_of_never fun _ _ _ => not_raises_specialPage]
    exact raises_recentTitles (by decide)
  | searchPage => exact iff_of_false (not_raises_of_ok rfl) id
  | reverseLink => exact raises_reverseLink

/-! ### The methods -/

/-- The GET requests that end in an error are for a special page that does. -/
def GetFails (r : Request) (sortByDate : DateSort) (d : Disk) : Prop :=
  ∃ special, specialPageCreator (urlTitle r.url) = some special ∧ special.Fails r sortByDate d

/-- As long as the listing holds page files only, no GET request fails. -/
theorem not_getFails {r : Request} {sortByDate : DateSort} {d : Disk}
    (h : ∀ file ∈ pageFiles d, serverConfig.suffix <:+ file.name) :
    ¬ GetFails r sortByDate d := by
  have htitle : ∀ file ∈ pageFiles d, ¬ LacksTitle file := fun file hf =>
    not_lacksTitle_of_suffix (h file hf)
  rintro ⟨special, _, hfails⟩
  cases special with
  | editPage => exact hfails
  | searchPage => exact hfails
  | indexPage =>
    obtain ⟨file, hf, hlacks⟩ := hfails
    exact htitle file hf hlacks
  | recentChanges =>
    obtain ⟨file, hf, hlacks⟩ := hfails
    exact htitle file ((sortByDate.perm _).subset (List.mem_of_mem_take hf)) hlacks
  | reverseLink =>
    obtain ⟨_, file, hf, hlacks⟩ := hfails
    exact htitle file hf hlacks

theorem isValidTitle_of_special {t : Bytes} {special : SpecialPage}
    (h : specialPageCreator t = some special) : isValidTitle t = true := by
  obtain ⟨l, l', heq, _⟩ := List.lookup_eq_some_iff.mp h
  have hvalid : ∀ e ∈ [(str "EditPage", SpecialPage.editPage),
      (str "IndexPage", .indexPage), (str "RecentChanges", .recentChanges),
      (str "SearchPage", .searchPage), (str "ReverseLink", .reverseLink)],
      isValidTitle e.1 = true := by decide
  exact hvalid (t, special) (heq ▸ by simp)

theorem raises_wikiPage {s : State} :
    Raises wikiPage s ↔ GetFails s.request s.sortByDate s.disk := by
  cases hs : specialPageCreator (urlTitle s.request.url) with
  | some special =>
    have hfails := raises_processSpecialPage special s.viewed
    rw [Raises, ← wikiPage_special (isValidTitle_of_special hs) hs] at hfails
    refine hfails.trans ⟨fun h => ⟨special, hs, h⟩, ?_⟩
    rintro ⟨special', hs', h⟩
    obtain rfl := Option.some.inj (hs.symm.trans hs')
    exact h
  | none =>
    refine iff_of_false ?_ ?_
    · cases hv : isValidTitle (urlTitle s.request.url) with
      | false => exact not_raises_of_ok (wikiPage_invalid hv)
      | true =>
        cases hload : WikiStore.loadPage s.disk (urlTitle s.request.url) with
        | none => exact not_raises_of_ok (wikiPage_missing hv hs hload)
        | some content => exact not_raises_of_ok (wikiPage_found hv hs hload rfl)
    · rintro ⟨special, hs', _⟩
      rw [hs] at hs'
      cases hs'

theorem not_raises_processRawFile {fileName : Bytes} {s : State} :
    ¬ Raises (processRawFile fileName) s := by
  rw [processRawFile, raises_bind_ok (openFile_apply _ _ s)]
  cases s.disk.read (serverConfig.rootDir ++ fileName) with
  | none => exact not_raises_of_ok rfl
  | some file => exact not_raises_of_ok rfl

theorem raises_handleGetRequest {s : State} :
    Raises handleGetRequest s ↔ GetFails s.request s.sortByDate s.disk := by
  rw [← raises_wikiPage]
  rcases hpage : wikiPage s with ⟨e | page, s'⟩
  · refine iff_of_true ?_ (raises_error hpage)
    exact raises_error (by rw [handleGetRequest, Run.bind_error hpage])
  · refine iff_of_false ?_ (not_raises_of_ok hpage)
    rw [handleGetRequest, raises_bind_ok hpage]
    cases page with
    | some page => exact not_raises_of_ok rfl
    | none =>
      rw [raises_bind_ok (Run.get_apply s')]
      rcases hraw : processRawFile s'.request.url s' with ⟨e | page, s''⟩
      · exact (not_raises_processRawFile (raises_error hraw)).elim
      · rw [raises_bind_ok hraw]
        cases page with
        | none => exact not_raises_of_ok rfl
        | some page => exact not_raises_of_ok rfl

/-- The forms that end in an error: no action, or a cancelled editing of no page. -/
def PostFails (form : Table) : Prop :=
  form.get (str "action") = none ∨
    ∃ action, form.get (str "action") = some action ∧
      gsubStr (pat " ") [] action = str "CancelEditing" ∧ form.get (str "page") = none

theorem not_raises_save {handler : Action Bool} {s : State}
    (hh : handler ∈ [postHandlerSave, postHandlerCheckpoint]) : ¬ Raises handler s := by
  cases ht : s.request.form.get (str "text") with
  | none => exact not_raises_of_ok (saveHandlers_none hh (.inl ht))
  | some content =>
    cases hp : s.request.form.get (str "page") with
    | none => exact not_raises_of_ok (saveHandlers_none hh (.inr hp))
    | some title =>
      rcases List.mem_pair.mp hh with rfl | rfl
      · exact not_raises_of_ok (postHandlerSave_some ht hp)
      · exact not_raises_of_ok (postHandlerCheckpoint_some ht hp)

theorem raises_cancelEditing {s : State} :
    Raises postHandlerCancelEditing s ↔ s.request.form.get (str "page") = none := by
  cases hp : s.request.form.get (str "page") with
  | none =>
    have herror : postHandlerCancelEditing s = (.error .concatNil, s) := by
      rw [postHandlerCancelEditing, Run.bind_error (formField_none hp)]
    exact iff_of_true (raises_error herror) rfl
  | some title =>
    refine iff_of_false ?_ (by simp)
    rw [postHandlerCancelEditing, raises_bind_ok (formField_some hp)]
    exact not_raises_of_ok rfl

theorem raises_handlePostRequest {s : State} :
    Raises handlePostRequest s ↔ PostFails s.request.form := by
  rw [handlePostRequest, raises_bind_ok (Run.get_apply s), PostFails]
  cases s.request.form.get (str "action") with
  | none => exact iff_of_true (raises_error rfl) (.inl rfl)
  | some action =>
    have hsave : str "Save" ≠ str "CancelEditing" := by decide
    have hcheckpoint : str "Checkpoint" ≠ str "CancelEditing" := by decide
    simp only [postActionHandler, reduceCtorEq, Option.some.injEq, exists_eq_left', false_or]
    split_ifs with h₁ h₂ h₃ h₄
    · exact iff_of_false (not_raises_save (by simp)) fun h => hsave (h₁.symm.trans h.1)
    · exact iff_of_false (not_raises_save (by simp)) fun h => hcheckpoint (h₂.symm.trans h.1)
    · exact raises_cancelEditing.trans (and_iff_right h₃).symm
    · exact iff_of_false (not_raises_of_ok rfl) fun h => h₃ h.1
    · exact iff_of_false (not_raises_of_ok rfl) fun h => h₃ h.1

/-! ### The status of an error page -/

/-- An error page can be made for the status. -/
def KnownStatus (s : State) : Prop := (httpErrors s.response.status).isSome

/-- The action sets known statuses only. -/
def KeepsStatus {α : Type} (x : Action α) : Prop := ∀ s, KnownStatus s → KnownStatus (x s).2

section
variable {α β : Type}

theorem KeepsStatus.bind {x : Action α} {f : α → Action β} (hx : KeepsStatus x)
    (hf : ∀ a, KeepsStatus (f a)) : KeepsStatus (x >>= f) := by
  intro s h
  have hs := hx s h
  rcases hrun : x s with ⟨e | a, s'⟩
  · rw [hrun] at hs
    rw [Run.bind_error hrun]
    exact hs
  · rw [hrun] at hs
    rw [Run.bind_ok hrun]
    exact hf a s' hs

theorem KeepsStatus.of_same {x : Action α} (h : ∀ s, (x s).2.response.status = s.response.status) :
    KeepsStatus x := by
  intro s hs
  rw [KnownStatus, h s]
  exact hs

theorem KeepsStatus.pure (a : α) : KeepsStatus (Pure.pure a : Action α) := .of_same fun _ => rfl

theorem KeepsStatus.error (e : LuaError) : KeepsStatus (Run.error e : Action α) :=
  .of_same fun _ => rfl

theorem KeepsStatus.get_bind {f : State → Action β} (hf : ∀ s, KeepsStatus (f s)) :
    KeepsStatus (Run.get >>= f) := .bind (.of_same fun _ => rfl) hf

theorem keepsStatus_setStatus {status : Nat} (h : (httpErrors status).isSome) :
    KeepsStatus (setStatus status) := fun _ _ => h

theorem keepsStatus_loadPage (title : Option Bytes) : KeepsStatus (loadPage title) := by
  cases title with
  | none => exact .error _
  | some t => exact .of_same fun _ => rfl

theorem keepsStatus_listedTitle (file : FileEntry) : KeepsStatus (listedTitle file) := by
  rw [listedTitle]
  cases getNameWithoutSuffix file.name with
  | none => exact .error _
  | some t => exact .pure _

theorem keepsStatus_indexTitles (files : List FileEntry) : KeepsStatus (indexTitles files) := by
  induction files with
  | nil => exact .pure _
  | cons file files ih =>
    exact (keepsStatus_listedTitle file).bind fun _ => ih.bind fun _ => .pure _

theorem keepsStatus_recentTitles (i : Nat) (files : List FileEntry) :
    KeepsStatus (recentTitles i files) := by
  induction files generalizing i with
  | nil => exact .pure _
  | cons file files ih =>
    refine (keepsStatus_listedTitle file).bind fun _ => ?_
    dsimp only
    split_ifs
    · exact .pure _
    · exact (ih (i + 1)).bind fun _ => .pure _

theorem keepsStatus_linkingTitles (pattern : Pattern) (files : List FileEntry) :
    KeepsStatus (linkingTitles pattern files) := by
  induction files with
  | nil => exact .pure _
  | cons file files ih => exact (keepsStatus_loadPage _).bind fun _ => ih.bind fun _ => .pure _

theorem keepsStatus_withFormatter (f : FormatterEnv → FormatterState → α × FormatterState) :
    KeepsStatus (withFormatter f) := .of_same fun _ => rfl

end

theorem keepsStatus_processSpecialPage (special : SpecialPage) :
    KeepsStatus (processSpecialPage special) := by
  cases special with
  | editPage =>
    refine .get_bind fun s => ?_
    cases s.request.parameters.get (str "page") with
    | none => exact (keepsStatus_setStatus (by decide)).bind fun _ => .pure _
    | some pageName =>
      dsimp only
      split_ifs
      · exact (keepsStatus_setStatus (by decide)).bind fun _ => .pure _
      · exact (keepsStatus_loadPage _).bind fun _ => .get_bind fun _ => .pure _
  | indexPage =>
    exact .get_bind fun _ => (keepsStatus_indexTitles _).bind fun _ =>
      (keepsStatus_withFormatter _).bind fun _ => .pure _
  | recentChanges =>
    exact .get_bind fun _ => (keepsStatus_recentTitles _ _).bind fun _ =>
      (keepsStatus_withFormatter _).bind fun _ => .pure _
  | searchPage => exact .get_bind fun _ => .pure _
  | reverseLink =>
    refine .get_bind fun s => .bind ?_ fun valid => ?_
    · cases s.request.parameters.get (str "page") with
      | none => exact .pure _
      | some t =>
        rw [isValidPage]
        split_ifs
        · exact .of_same fun _ => rfl
        · exact .pure _
    · dsimp only
      split_ifs
      · exact (keepsStatus_setStatus (by decide)).bind fun _ => .pure _
      · split
        · exact .error _
        · exact .get_bind fun _ => (keepsStatus_linkingTitles _ _).bind fun _ =>
            (keepsStatus_withFormatter _).bind fun _ => .pure _

theorem keepsStatus_wikiPage : KeepsStatus wikiPage := by
  refine .bind (.of_same fun _ => rfl) fun _ => .get_bind fun s => ?_
  dsimp only
  split_ifs
  · exact .pure _
  · split
    · exact keepsStatus_processSpecialPage _
    · refine .bind (.of_same fun _ => rfl) fun found => ?_
      split_ifs
      · exact (keepsStatus_loadPage _).bind fun _ =>
          (keepsStatus_withFormatter _).bind fun _ => .pure _
      · exact .get_bind fun _ => .pure _

theorem keepsStatus_answerPage {x : Action (Option Bytes)} {f : Bytes → Action Bool}
    (hx : KeepsStatus x) (hf : ∀ page, KeepsStatus (f page)) :
    KeepsStatus (x >>= fun page => match page with
      | none => return false
      | some page => f page) := by
  refine hx.bind fun page => ?_
  cases page with
  | none => exact .pure _
  | some page => exact hf page

theorem keepsStatus_handleGetRequest : KeepsStatus handleGetRequest := by
  have hraw : ∀ fileName, KeepsStatus (processRawFile fileName) := by
    intro fileName
    refine .bind (.of_same fun _ => rfl) fun file => ?_
    cases file with
    | none => exact (keepsStatus_setStatus (by decide)).bind fun _ => .pure _
    | some file => exact .bind (.of_same fun _ => rfl) fun _ => .pure _
  have hanswer : ∀ page, KeepsStatus (do
      Run.modify fun s : State => { s with response := { s.response with
        header := createHttpHeader s.response.status s.response.contentType page.length
        content := page } }
      return true) := fun _ => .bind (.of_same fun _ => rfl) fun _ => .pure _
  refine keepsStatus_wikiPage.bind fun page => ?_
  cases page with
  | some page => exact keepsStatus_answerPage (.pure _) hanswer
  | none => exact .get_bind fun _ => keepsStatus_answerPage (hraw _) hanswer

theorem keepsStatus_postActionHandler {action : Bytes} {handler : Action Bool}
    (h : postActionHandler action = some handler) : KeepsStatus handler := by
  have hredirect : ∀ newPage, KeepsStatus (redirectToPage newPage) := by
    intro newPage s _
    change (httpErrors 303).isSome
    decide
  have hfield : ∀ name, KeepsStatus (formField name) := by
    intro name
    refine .get_bind fun s => ?_
    cases s.request.form.get (str name) with
    | none => exact .error _
    | some value => exact .pure _
  have hsave : KeepsStatus doSaveAfterEditing := by
    refine .get_bind fun s => ?_
    dsimp only
    split
    · refine .bind (.of_same fun _ => rfl) fun saved => ?_
      split_ifs
      · exact .pure _
      · exact (keepsStatus_setStatus (by decide)).bind fun _ => .pure _
    · exact (keepsStatus_setStatus (by decide)).bind fun _ => .pure _
  rw [postActionHandler] at h
  split_ifs at h
  · obtain rfl := Option.some.inj h
    refine hsave.bind fun saved => ?_
    split_ifs
    · exact .pure _
    · exact (hfield _).bind fun _ => hredirect _
  · obtain rfl := Option.some.inj h
    refine hsave.bind fun saved => ?_
    split_ifs
    · exact .pure _
    · exact (hfield _).bind fun _ => hredirect _
  · obtain rfl := Option.some.inj h
    exact (hfield _).bind fun _ => hredirect _
  · obtain rfl := Option.some.inj h
    exact .get_bind fun _ => hredirect _

theorem keepsStatus_handlePostRequest : KeepsStatus handlePostRequest := by
  refine .get_bind fun s => ?_
  cases s.request.form.get (str "action") with
  | none => exact .error _
  | some action =>
    dsimp only
    split
    · exact (keepsStatus_setStatus (by decide)).bind fun _ => .pure _
    · exact keepsStatus_postActionHandler ‹_›

theorem keepsStatus_methodHandler (httpMethod : Bytes) :
    KeepsStatus (methodHandler httpMethod) := by
  rw [methodHandler]
  split_ifs
  · exact keepsStatus_handleGetRequest
  · exact keepsStatus_handlePostRequest
  · exact .error _
  · exact .error _

theorem not_raises_respond {result : Bool} {s : State} (h : result = false → KnownStatus s) :
    ¬ Raises (respond result) s := by
  cases result with
  | true => exact not_raises_of_ok rfl
  | false =>
    obtain ⟨text, htext⟩ := Option.isSome_iff_exists.mp (h rfl)
    simp [Raises, respond, prepareErrorResponse, createHttpErrorPage, Run.bind_apply, htext]

/-! ### The requests that stop the server -/

/-- The header block asks for a supported method and announces a length that is no number. -/
def LengthFails (sock : Socket) : Prop :=
  ∃ header postData, receivedHeader sock = some (header, postData) ∧ Supported header ∧
    ∃ value, (parseOptions header .empty).get (str "content-length") = some value ∧
      toNumber value = none

theorem raises_readBody {s : State} :
    Raises readBody s ↔ ∃ value, s.request.options.get (str "content-length") = some value ∧
      toNumber value = none := by
  cases hlen : s.request.options.get (str "content-length") with
  | none => exact iff_of_false (not_raises_of_ok (readBody_none hlen)) (by simp)
  | some value =>
    cases hn : toNumber value with
    | none => exact iff_of_true (raises_error (readBody_error hlen hn)) ⟨value, rfl, hn⟩
    | some n =>
      refine iff_of_false ?_ (by simp [hn])
      have hrun := readBody_number hlen hn
      split at hrun
      · exact not_raises_of_ok hrun
      · split at hrun
        · exact not_raises_of_ok hrun
        · exact not_raises_of_ok hrun

theorem keepsStatus_readBody : KeepsStatus readBody := by
  intro s hs
  cases hlen : s.request.options.get (str "content-length") with
  | none =>
    rw [readBody_none hlen]
    exact hs
  | some value =>
    cases hn : toNumber value with
    | none =>
      rw [readBody_error hlen hn]
      exact hs
    | some n =>
      rw [readBody_number hlen hn]
      split
      · exact hs
      · split
        · change (httpErrors 500).isSome
          decide
        · exact hs

/-- What parsing comes to: an error page, or the body of a request with a supported method. -/
theorem parsed_cases (sock : Socket) :
    (¬ LengthFails sock ∧ (parsed sock).1 = .ok false ∧ KnownStatus (parsed sock).2) ∨
    ∃ s, parsed sock = readBody s ∧ KnownStatus s ∧
      httpMethods (upper s.request.method) = some true ∧
      (Raises readBody s ↔ LengthFails sock) := by
  rcases parseHttpRequest_cases (WikiEngine.new .insertion sock .empty) with
    ⟨⟨socket, request, status, hstatus, hfalse⟩, hmethod⟩ |
      ⟨socket, header, postData, hreceived, hmethod, hread⟩
  · refine .inl ⟨?_, by rw [parsed, hfalse], ?_⟩
    · rintro ⟨header, postData, hreceived, hsupported, _⟩
      refine hmethod header postData hreceived ?_
      exact (congrArg (httpMethods ∘ upper) (parseRequestLine_method header postData)).trans
        hsupported
    · have hknown : ∀ status ∈ [500, 400, 501], (httpErrors status).isSome := by decide
      rw [parsed, hfalse]
      exact hknown status hstatus
  · refine .inr ⟨_, hread, ?_, hmethod, ?_⟩
    · change (httpErrors 200).isSome
      decide
    · rw [raises_readBody, LengthFails]
      have hoptions : ∀ r : Request, (parseHeaderFields (parseRequestLine r)).options =
          parseOptions r.header r.options := by
        intro r
        rw [← parseRequestLine_header r, ← parseRequestLine_options r]
        rfl
      rw [hoptions]
      constructor
      · rintro ⟨value, hvalue, hn⟩
        refine ⟨header, postData, hreceived, ?_, value, hvalue, hn⟩
        exact (congrArg (httpMethods ∘ upper) (parseRequestLine_method header postData)).symm.trans
          hmethod
      · rintro ⟨header', postData', hreceived', _, value, hvalue, hn⟩
        obtain ⟨rfl, rfl⟩ := Prod.mk.inj (Option.some.inj (hreceived.symm.trans hreceived'))
        exact ⟨value, hvalue, hn⟩

theorem parsed_raises {sock : Socket} :
    (∃ e, (parsed sock).1 = .error e) ↔ LengthFails sock := by
  rcases parsed_cases sock with ⟨hnot, hfalse, _⟩ | ⟨s, hread, _, _, hiff⟩
  · exact iff_of_false (by simp [hfalse]) hnot
  · rw [hread]
    exact hiff

theorem parsed_known (sock : Socket) : KnownStatus (parsed sock).2 := by
  rcases parsed_cases sock with ⟨_, _, hknown⟩ | ⟨s, hread, hknown, _⟩
  · exact hknown
  · rw [hread]
    exact keepsStatus_readBody s hknown

theorem parsed_method {sock : Socket} (h : (parsed sock).1 = .ok true) :
    httpMethods (upper (parsed sock).2.request.method) = some true := by
  rcases parsed_cases sock with ⟨_, hfalse, _⟩ | ⟨s, hread, _, hmethod, _⟩
  · rw [hfalse] at h
    cases h
  · rcases hbody : readBody s with ⟨result, s'⟩
    obtain ⟨⟨postData, form, hrequest⟩, _⟩ := readBody_kept hbody
    rw [hread, hbody, hrequest]
    exact hmethod

/-- The parsed requests whose handler ends in an error. -/
def HandlerFails (r : Request) (sortByDate : DateSort) (d : Disk) : Prop :=
  upper r.method = str "HEAD" ∨
    upper r.method = str "POST" ∧ PostFails r.form ∨
      upper r.method = str "GET" ∧ GetFails r sortByDate d

theorem raises_methodHandler {s : State}
    (hmethod : httpMethods (upper s.request.method) = some true) :
    Raises (methodHandler (upper s.request.method)) s ↔
      HandlerFails s.request s.sortByDate s.disk := by
  have hget : str "GET" ≠ str "HEAD" ∧ str "GET" ≠ str "POST" := by decide
  have hpost : str "POST" ≠ str "HEAD" ∧ str "POST" ≠ str "GET" := by decide
  have hhead : str "HEAD" ≠ str "GET" ∧ str "HEAD" ≠ str "POST" := by decide
  have hsupported : upper s.request.method ∈ [str "GET", str "HEAD", str "POST"] := by
    rw [httpMethods] at hmethod
    split_ifs at hmethod with hmem hother
    · exact hmem
    · cases hmethod
  rw [HandlerFails]
  simp only [List.mem_cons, List.not_mem_nil, or_false] at hsupported
  rcases hsupported with h | h | h
  · simp only [h, methodHandler, hget, ↓reduceIte, false_or, false_and, true_and]
    exact raises_handleGetRequest
  · simp only [h, methodHandler, hhead, ↓reduceIte, true_or, iff_true]
    exact raises_error rfl
  · simp only [h, methodHandler, hpost, ↓reduceIte, false_or, false_and, true_and, or_false]
    exact raises_handlePostRequest

theorem raises_answer {sortByDate : DateSort} {sock : Socket} {disk : Disk} :
    Raises answer (WikiEngine.new sortByDate sock disk) ↔
      LengthFails sock ∨ (parsed sock).1 = .ok true ∧
        HandlerFails (parsed sock).2.request sortByDate disk := by
  have hparse := parseHttpRequest_new sortByDate sock disk
  rw [← parsed_raises, answer]
  rcases hparsed : (parsed sock).1 with e | ok
  · rw [hparsed] at hparse
    exact iff_of_true (raises_bind_error (raises_error hparse)) (.inl ⟨e, rfl⟩)
  · rw [hparsed] at hparse
    rw [raises_bind_ok hparse]
    cases ok with
    | false => exact iff_of_false (not_raises_of_ok rfl) (by simp)
    | true =>
      simp only [Bool.not_true, Bool.false_eq_true, ↓reduceIte, reduceCtorEq, exists_false,
        false_or, true_and]
      rw [raises_bind_ok (Run.get_apply _)]
      exact raises_methodHandler (s := (parsed sock).2.on sortByDate disk [] {})
        (parsed_method hparsed)

theorem answer_known (sortByDate : DateSort) (sock : Socket) (disk : Disk) :
    KnownStatus (answer (WikiEngine.new sortByDate sock disk)).2 := by
  have hknown : KnownStatus ((parsed sock).2.on sortByDate disk [] {}) := parsed_known sock
  have hhandler : ∀ ok, KeepsStatus (if (!ok) = true then return false
      else do methodHandler (upper (← Run.get).request.method) : Action Bool) := by
    intro ok
    split_ifs
    · exact .pure _
    · exact .get_bind fun _ => keepsStatus_methodHandler _
  rw [answer, Run.bind_apply, parseHttpRequest_new]
  cases (parsed sock).1 with
  | error e => exact hknown
  | ok ok => exact hhandler ok _ hknown

/-- A response is made exactly when the length that is announced is a number, and the handler of
a parsed request does not fail. -/
theorem processRequest_answers_iff (sortByDate : DateSort) (sock : Socket) (disk : Disk) :
    (∃ response, (processRequest sortByDate sock disk).1 = .ok response) ↔
      ¬ LengthFails sock ∧
        ((parsed sock).1 = .ok true → ¬ HandlerFails (parsed sock).2.request sortByDate disk) := by
  have hrespond : Raises (answer >>= respond) (WikiEngine.new sortByDate sock disk) ↔
      Raises answer (WikiEngine.new sortByDate sock disk) := by
    refine raises_bind_of_never fun result s' hanswer => not_raises_respond fun _ => ?_
    have hknown := answer_known sortByDate sock disk
    rwa [hanswer] at hknown
  have hok : (∃ response, (processRequest sortByDate sock disk).1 = .ok response) ↔
      ¬ Raises (answer >>= respond) (WikiEngine.new sortByDate sock disk) := by
    rw [processRequest_eq]
    rcases hrun : (answer >>= respond) (WikiEngine.new sortByDate sock disk) with
      ⟨e | response, s'⟩
    · exact iff_of_false (by simp) (not_not_intro (raises_error hrun))
    · exact iff_of_true ⟨response, rfl⟩ (not_raises_of_ok hrun)
  rw [hok, hrespond, raises_answer, not_or, not_and]

/-- A HEAD request is well formed, and its handler calls a method that no class has. -/
theorem processRequest_head_fails :
    let sock : Socket := ⟨[str "HEAD / HTTP/1.1\r\n\r\n"], by decide,
      fun n => some n.floor.toNat⟩
    ¬ ∃ response, (processRequest .insertion sock .empty).1 = .ok response := by
  intro sock
  have herror : (processRequest .insertion sock .empty).1 = .error .callNil := by decide
  rintro ⟨response, hresponse⟩
  rw [herror] at hresponse
  cases hresponse

end MoonWiki
