import MoonWiki.Server

/-! Which files a run of the server opens for writing. -/
namespace MoonWiki
open Lua

/-! ### One request -/

/-- The page that a POST request asks to save: it has a saving action, a text and a page. -/
def Request.savedTitle (r : Request) : Option Bytes :=
  match r.form.get (str "action"), r.form.get (str "text"), r.form.get (str "page") with
  | some action, some _, some title =>
    if upper r.method = str "POST" ∧ gsubStr (pat " ") [] action ∈ [str "Save", str "Checkpoint"]
    then some title
    else none
  | _, _, _ => none

/-- The page that a connection asks to save. -/
def Connection.savedTitle (c : Connection) : Option Bytes :=
  match parsed c.socket with
  | (.ok true, s) => s.request.savedTitle
  | _ => none

theorem savingHandler_opened {handler : Action Bool}
    (hh : handler ∈ [postHandlerSave, postHandlerCheckpoint]) (s : State) :
    (handler s).2.opened = s.opened ++
      (match s.request.form.get (str "text"), s.request.form.get (str "page") with
      | some _, some title => [(Mode.write, pagePath title)]
      | _, _ => []) := by
  cases ht : s.request.form.get (str "text") with
  | none => simp [saveHandlers_none hh (.inl ht), State.failed]
  | some content =>
    cases hp : s.request.form.get (str "page") with
    | none => simp [saveHandlers_none hh (.inr hp), State.failed]
    | some title =>
      rcases List.mem_pair.mp hh with rfl | rfl
      · rw [postHandlerSave_some ht hp]
        dsimp only
        split <;> rfl
      · rw [postHandlerCheckpoint_some ht hp]
        dsimp only
        split <;> rfl

theorem formField_opened (name : String) (s : State) :
    (formField name s).2.opened = s.opened := by
  cases h : s.request.form.get (str name) with
  | none => rw [formField_none h]
  | some value => rw [formField_some h]

theorem postHandlerCancelEditing_opened (s : State) :
    (postHandlerCancelEditing s).2.opened = s.opened := by
  have hfield := formField_opened "page" s
  rw [postHandlerCancelEditing, Run.bind_apply]
  rcases hrun : formField "page" s with ⟨e | title, s'⟩
  · rwa [hrun] at hfield
  · rwa [hrun] at hfield

theorem postHandlerSearch_opened (s : State) : (postHandlerSearch s).2.opened = s.opened := rfl

/-- The saving handlers are the only ones that write. -/
theorem handlePostRequest_opened {s : State} (hm : upper s.request.method = str "POST") :
    (handlePostRequest s).2.opened = s.opened ++
      s.request.savedTitle.toList.map fun title => (Mode.write, pagePath title) := by
  cases ha : s.request.form.get (str "action") with
  | none => simp [handlePostRequest, Run.bind_apply, ha, Request.savedTitle]
  | some action =>
    simp only [handlePostRequest, Run.bind_apply, Run.get_apply, ha, postActionHandler]
    by_cases hsave : gsubStr (pat " ") [] action ∈ [str "Save", str "Checkpoint"]
    · have hwrites : ∀ handler ∈ [postHandlerSave, postHandlerCheckpoint],
          (handler s).2.opened = s.opened ++
            s.request.savedTitle.toList.map fun title => (Mode.write, pagePath title) := by
        intro handler hh
        rw [savingHandler_opened hh, Request.savedTitle, ha]
        cases s.request.form.get (str "text") with
        | none => rfl
        | some content =>
          cases s.request.form.get (str "page") with
          | none => rfl
          | some title => simp [hm, hsave]
      rcases List.mem_pair.mp hsave with h | h
      · rw [h, if_pos rfl]
        exact hwrites postHandlerSave (by simp)
      · have hne : str "Checkpoint" ≠ str "Save" := by decide
        rw [h, if_neg hne, if_pos rfl]
        exact hwrites postHandlerCheckpoint (by simp)
    · have hnone : s.request.savedTitle = none := by
        rw [Request.savedTitle, ha]
        split
        · rename_i heq _ _
          obtain rfl := Option.some.inj heq
          exact if_neg fun h => hsave h.2
        · rfl
      have hne : gsubStr (pat " ") [] action ≠ str "Save" ∧
          gsubStr (pat " ") [] action ≠ str "Checkpoint" := by simpa using hsave
      rw [hnone, if_neg hne.1, if_neg hne.2, Option.toList_none, List.map_nil, List.append_nil]
      by_cases hcancel : gsubStr (pat " ") [] action = str "CancelEditing"
      · rw [if_pos hcancel]
        exact postHandlerCancelEditing_opened s
      · rw [if_neg hcancel]
        by_cases hsearch : gsubStr (pat " ") [] action = str "Search"
        · rw [if_pos hsearch]
          exact postHandlerSearch_opened s
        · rw [if_neg hsearch]
          rfl

theorem savedTitle_eq_none {r : Request} (hm : upper r.method ≠ str "POST") :
    r.savedTitle = none := by
  rw [Request.savedTitle]
  split
  · exact if_neg fun h => hm h.1
  · rfl

/-- A handler opens for writing the file of the page that is to be saved, and no other. -/
theorem methodHandler_writes (s : State) (path : Bytes) :
    (Mode.write, path) ∈ (methodHandler (upper s.request.method) s).2.opened ↔
      (Mode.write, path) ∈ s.opened ∨
        ∃ title, s.request.savedTitle = some title ∧ path = pagePath title := by
  by_cases hpost : upper s.request.method = str "POST"
  · have hne : str "POST" ≠ str "GET" := by decide
    have hopened := handlePostRequest_opened hpost
    rw [hpost, methodHandler, if_neg hne, if_pos rfl, hopened, List.mem_append]
    refine or_congr Iff.rfl ?_
    cases s.request.savedTitle with
    | none => simp
    | some title => simp
  · rw [savedTitle_eq_none hpost, methodHandler]
    have hreads : (Mode.write, path) ∈ (handleGetRequest s).2.opened ↔
        (Mode.write, path) ∈ s.opened := by
      obtain ⟨⟨paths, hopened, _⟩, _, _⟩ := handleGetRequest_reads s
      rw [hopened, List.mem_append]
      simp
    by_cases hget : upper s.request.method = str "GET"
    · rw [if_pos hget, hreads]
      simp
    · rw [if_neg hget, if_neg hpost]
      by_cases hhead : upper s.request.method = str "HEAD"
      · rw [if_pos hhead]
        simp [handleHeadRequest]
      · rw [if_neg hhead]
        simp

/-- The step: what serving one connection opens for writing. -/
theorem serve_writes (c : Connection) (disk : Disk) (path : Bytes) :
    (Mode.write, path) ∈ (c.serve disk).2.opened ↔
      ∃ title, c.savedTitle = some title ∧ path = pagePath title := by
  have hfiles := (processRequest_files c.sortByDate c.socket (c.between disk)).1
  rw [Connection.serve, hfiles, Connection.savedTitle]
  rcases hparsed : parsed c.socket with ⟨e | ok, s⟩
  · simp [State.on]
  · cases ok with
    | false => simp [State.on]
    | true =>
      have hwrites := methodHandler_writes (s.on c.sortByDate (c.between disk) [] {}) path
      simpa [State.on] using hwrites

/-! ### The file of a saved page -/

/-- The field names a page: a WikiWord, or one with its suffix before a zero byte, where the
C library ends the path. -/
def NamesPage (title : Bytes) : Prop :=
  ∃ t, IsWikiWord t ∧ (title = t ∨ ∃ r, title = t ++ serverConfig.suffix ++ 0 :: r)

/-- The path of a page file. -/
def IsPageFile (path : Bytes) : Prop := ∃ t, IsWikiWord t ∧ cString path = pagePath t

theorem cString_pagePath (title : Bytes) :
    cString (pagePath title) =
      serverConfig.rootDir ++ ch '/' :: cString (title ++ serverConfig.suffix) := by
  have hdir : ∀ b ∈ serverConfig.rootDir ++ [ch '/'], b ≠ 0 := by decide
  have happ := cString_append hdir (title ++ serverConfig.suffix)
  rw [pagePath_eq]
  simpa using happ

theorem isPageFile_pagePath {title : Bytes} : IsPageFile (pagePath title) ↔ NamesPage title := by
  refine exists_congr fun t => and_congr_right fun ht => ?_
  have hsuffix : ∀ b ∈ serverConfig.suffix, b ≠ 0 := by decide
  have hplain : ∀ b, isAlnum b = true → b ≠ 0 := fun b hb => ne_of_test hb (by decide)
  have hfile : ∀ b ∈ t ++ serverConfig.suffix, b ≠ 0 := by
    intro b hb
    rcases List.mem_append.mp hb with hb | hb
    · exact hplain b (ht.alnum b hb)
    · exact hsuffix b hb
  rw [cString_pagePath, pagePath_eq, List.append_cancel_left_eq, List.cons_inj_right]
  constructor
  · intro heq
    by_cases hzero : (0 : Byte) ∈ title
    · obtain ⟨r, hr⟩ := cString_zero hzero
      have hc : cString (title ++ serverConfig.suffix) = cString title := by
        have hno : ∀ b ∈ cString title, b ≠ 0 := fun b hb => by
          simpa using List.mem_takeWhile_imp hb
        conv_lhs => rw [hr, List.append_assoc, cString_append hno]
        simp [cString]
      exact .inr ⟨r, by rw [← heq, hc, ← hr]⟩
    · have hno : ∀ b ∈ title ++ serverConfig.suffix, b ≠ 0 := by
        intro b hb
        rcases List.mem_append.mp hb with hb | hb
        · exact fun h => hzero (h ▸ hb)
        · exact hsuffix b hb
      rw [cString_eq_self hno] at heq
      exact .inl (List.append_cancel_right heq)
  · rintro (rfl | ⟨r, rfl⟩)
    · exact cString_eq_self hfile
    · rw [List.append_assoc, cString_append hfile]
      simp [cString]

/-- A page file lies directly in the root directory. -/
theorem IsPageFile.resolve {path : Bytes} (h : IsPageFile path) (cwd : List Bytes) :
    ∃ t, IsWikiWord t ∧
      resolve cwd path = (t ++ serverConfig.suffix) :: serverConfig.rootDir :: cwd := by
  obtain ⟨t, ht, hpath⟩ := h
  refine ⟨t, ht, ?_⟩
  have hno : ∀ b ∈ pagePath t, b ≠ 0 := fun b hb => by
    rw [← hpath] at hb
    simpa using List.mem_takeWhile_imp hb
  rw [← resolve_pagePath ht.alnum, MoonWiki.resolve, MoonWiki.resolve, hpath,
    cString_eq_self hno]

/-! ### A run -/

/-- In every run the files opened for writing are files of pages exactly when every request
that is served and saves a page names one. -/
theorem runServer_writes_iff {cs : List Connection} {disk : Disk} :
    (∀ path, (Mode.write, path) ∈ runServer cs disk → IsPageFile path) ↔
      ∀ c ∈ served cs disk, ∀ title, c.savedTitle = some title → NamesPage title := by
  have hstep : ∀ (c : Connection) (disk : Disk),
      (∀ path, (Mode.write, path) ∈ (c.serve disk).2.opened → IsPageFile path) ↔
        ∀ title, c.savedTitle = some title → NamesPage title := by
    intro c disk
    simp only [serve_writes]
    constructor
    · exact fun h title ht => isPageFile_pagePath.mp (h _ ⟨title, ht, rfl⟩)
    · rintro h path ⟨title, ht, rfl⟩
      exact isPageFile_pagePath.mpr (h title ht)
  induction cs generalizing disk with
  | nil => simp [runServer, served]
  | cons c cs ih =>
    have hc := hstep c disk
    rw [runServer, served]
    rcases hserve : c.serve disk with ⟨e | response, s⟩
    · rw [hserve] at hc
      simpa using hc
    · rw [hserve] at hc
      simp only [List.mem_append, List.forall_mem_cons, or_imp, forall_and, hc, ih]

/-- A form whose page climbs out of the root directory. -/
theorem runServer_writes_outside :
    let sock : Socket :=
      ⟨[str "POST / HTTP/1.1\r\nContent-Length: 28\r\n\r\naction=Save&text=x&page=../x"],
        by decide, fun n => some n.floor.toNat⟩
    (Mode.write, str "htdocs/../x.txt") ∈ runServer [⟨sock, .insertion, id⟩] .empty ∧
      ¬ IsPageFile (str "htdocs/../x.txt") ∧
      ¬ Inside Disk.empty.cwd (str "htdocs/../x.txt") := by
  intro sock
  refine ⟨by decide +kernel, ?_, by decide⟩
  have hnot : ¬ NamesPage (str "../x") := by
    rintro ⟨t, ht, rfl | ⟨r, hr⟩⟩
    · exact absurd ht.alnum (by decide)
    · have hzero : (0 : Byte) ∈ str "../x" := by
        rw [hr]
        simp
      exact absurd hzero (by decide)
  exact fun h => hnot (isPageFile_pagePath.mp h)

end MoonWiki
