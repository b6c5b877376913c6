import MoonWiki.SaveThenGet

/-! A run of the server as a store: what the files hold after any requests, and what a GET of a
page shows then. -/
namespace MoonWiki
open Lua

/-! ### The abstract store -/

/-- A store holds a text at a place, or none. -/
abbrev Files := List Bytes → Option Bytes

structure FileWrite where
  place : List Bytes
  text : Bytes
  deriving DecidableEq

def Files.write (fs : Files) (w : FileWrite) : Files := Function.update fs w.place (some w.text)

/-- The text of the last write to the place. -/
def lastText (writes : List FileWrite) (place : List Bytes) : Option Bytes :=
  ((writes.filter (·.place = place)).getLast?).map (·.text)

theorem lastText_cons (w : FileWrite) (writes : List FileWrite) (place : List Bytes) :
    lastText (w :: writes) place =
      (lastText writes place).or (if w.place = place then some w.text else none) := by
  by_cases h : w.place = place
  · cases hlast : (writes.filter (·.place = place)).getLast? with
    | none => simp [lastText, h, List.getLast?_cons, hlast]
    | some v => simp [lastText, h, List.getLast?_cons, hlast]
  · simp [lastText, h]

/-- The last write wins. -/
theorem foldl_write (fs : Files) (writes : List FileWrite) (place : List Bytes) :
    writes.foldl Files.write fs place = (lastText writes place).or (fs place) := by
  induction writes generalizing fs with
  | nil => rfl
  | cons w writes ih =>
    rw [List.foldl_cons, ih, lastText_cons, Option.or_assoc]
    congr 1
    by_cases h : w.place = place
    · simp [Files.write, h]
    · simp [Files.write, h, Ne.symm h]

/-! ### What one request writes -/

/-- The page and the text that the request asks to save. -/
def Request.saves (r : Request) : Option (Bytes × Bytes) :=
  r.savedTitle.bind fun title => (r.form.get (str "text")).map fun text => (title, text)

def Connection.saves (c : Connection) : Option (Bytes × Bytes) :=
  match parsed c.socket with
  | (.ok true, s) => s.request.saves
  | _ => none

/-- The write that the disk makes of a save. -/
def Disk.saveWrite (d : Disk) (title text : Bytes) : Option FileWrite :=
  match d.writing with
  | .openFails => none
  | .accepts k => some ⟨resolve d.cwd (pagePath title), (WikiStore.stripCR text).take k⟩

def Connection.write (c : Connection) (disk : Disk) : Option FileWrite :=
  c.saves.bind fun page => (c.between disk).saveWrite page.1 page.2

/-- The disk after the writes. -/
def Disk.written (d : Disk) (writes : List FileWrite) : Disk :=
  { d with files := writes.foldl Files.write d.files }

theorem savePage_disk (d : Disk) (title text : Bytes) :
    (WikiStore.savePage d title text).2 = d.written (d.saveWrite title text).toList := by
  rw [WikiStore.savePage, Disk.write, Disk.saveWrite]
  cases d.writing with
  | openFails => rfl
  | accepts k =>
    simp only [Disk.put, Disk.written, Option.toList_some, List.foldl_cons, List.foldl_nil]
    congr 1
    funext place
    by_cases h : place = resolve d.cwd (pagePath title)
    · simp [Files.write, h]
    · simp [Files.write, h]

theorem savingHandler_disk {handler : Action Bool}
    (hh : handler ∈ [postHandlerSave, postHandlerCheckpoint]) (s : State) {title : Bytes}
    (hp : s.request.form.get (str "page") = some title) :
    (handler s).2.disk = s.disk.written
      ((s.request.form.get (str "text")).bind (s.disk.saveWrite title)).toList := by
  cases ht : s.request.form.get (str "text") with
  | none =>
    rw [saveHandlers_none hh (.inl ht)]
    rfl
  | some text =>
    have hsaved : (s.saved title text).disk = s.disk.written (s.disk.saveWrite title text).toList :=
      savePage_disk s.disk title text
    rcases List.mem_pair.mp hh with rfl | rfl
    · rw [postHandlerSave_some ht hp]
      dsimp only
      split
      · exact hsaved
      · exact hsaved
    · rw [postHandlerCheckpoint_some ht hp]
      dsimp only
      split
      · exact hsaved
      · exact hsaved

theorem formField_disk (name : String) (s : State) : (formField name s).2.disk = s.disk := by
  cases h : s.request.form.get (str name) with
  | none => rw [formField_none h]
  | some value => rw [formField_some h]

theorem postHandlerCancelEditing_disk (s : State) :
    (postHandlerCancelEditing s).2.disk = s.disk := by
  have hfield := formField_disk "page" s
  rw [postHandlerCancelEditing, Run.bind_apply]
  rcases hrun : formField "page" s with ⟨e | title, s'⟩
  · rwa [hrun] at hfield
  · rwa [hrun] at hfield

/-- What the request has written, on a disk in this state. -/
def Request.writes (r : Request) (d : Disk) : List FileWrite :=
  (r.saves.bind fun page => d.saveWrite page.1 page.2).toList

theorem savingHandler_writes {handler : Action Bool}
    (hh : handler ∈ [postHandlerSave, postHandlerCheckpoint]) {s : State} {action : Bytes}
    (hm : upper s.request.method = str "POST")
    (ha : s.request.form.get (str "action") = some action)
    (hsave : gsubStr (pat " ") [] action ∈ [str "Save", str "Checkpoint"]) :
    (handler s).2.disk = s.disk.written (s.request.writes s.disk) := by
  cases hp : s.request.form.get (str "page") with
  | none =>
    have hnone : s.request.writes s.disk = [] := by
      rw [Request.writes, Request.saves, Request.savedTitle, ha, hp]
      cases s.request.form.get (str "text") with
      | none => rfl
      | some text => rfl
    rw [saveHandlers_none hh (.inr hp), hnone]
    rfl
  | some title =>
    have hwrites : s.request.writes s.disk =
        ((s.request.form.get (str "text")).bind (s.disk.saveWrite title)).toList := by
      rw [Request.writes, Request.saves, Request.savedTitle, ha, hp]
      cases s.request.form.get (str "text") with
      | none => rfl
      | some text => simp [hm, hsave]
    rw [hwrites]
    exact savingHandler_disk hh s hp

theorem writes_eq_nil {r : Request} (h : r.savedTitle = none) (d : Disk) : r.writes d = [] := by
  rw [Request.writes, Request.saves, h]
  rfl

theorem handlePostRequest_disk {s : State} (hm : upper s.request.method = str "POST") :
    (handlePostRequest s).2.disk = s.disk.written (s.request.writes s.disk) := by
  cases ha : s.request.form.get (str "action") with
  | none =>
    have hnone : s.request.savedTitle = none := by simp [Request.savedTitle, ha]
    rw [writes_eq_nil hnone]
    simp [handlePostRequest, Run.bind_apply, ha, Disk.written]
  | some action =>
    simp only [handlePostRequest, Run.bind_apply, Run.get_apply, ha, postActionHandler]
    by_cases hsave : gsubStr (pat " ") [] action ∈ [str "Save", str "Checkpoint"]
    · have hne : str "Checkpoint" ≠ str "Save" := by decide
      rcases List.mem_pair.mp hsave with h | h
      · rw [h, if_pos rfl]
        exact savingHandler_writes (by simp) hm ha hsave
      · rw [h, if_neg hne, if_pos rfl]
        exact savingHandler_writes (by simp) hm ha hsave
    · have hnone : s.request.savedTitle = none := by
        rw [Request.savedTitle, ha]
        split
        · rename_i heq _ _
          obtain rfl := Option.some.inj heq
          exact if_neg fun h => hsave h.2
        · rfl
      have hne : gsubStr (pat " ") [] action ≠ str "Save" ∧
          gsubStr (pat " ") [] action ≠ str "Checkpoint" := by simpa using hsave
      rw [writes_eq_nil hnone, if_neg hne.1, if_neg hne.2]
      by_cases hcancel : gsubStr (pat " ") [] action = str "CancelEditing"
      · rw [if_pos hcancel]
        exact postHandlerCancelEditing_disk s
      · rw [if_neg hcancel]
        by_cases hsearch : gsubStr (pat " ") [] action = str "Search"
        · rw [if_pos hsearch]
          rfl
        · rw [if_neg hsearch]
          rfl

/-- Only the saving handlers change the disk. -/
theorem methodHandler_disk (s : State) :
    (methodHandler (upper s.request.method) s).2.disk =
      s.disk.written (s.request.writes s.disk) := by
  by_cases hpost : upper s.request.method = str "POST"
  · have hne : str "POST" ≠ str "GET" := by decide
    rw [hpost, methodHandler, if_neg hne, if_pos rfl]
    exact handlePostRequest_disk hpost
  · rw [writes_eq_nil (savedTitle_eq_none hpost), methodHandler]
    by_cases hget : upper s.request.method = str "GET"
    · rw [if_pos hget]
      exact (handleGetRequest_reads s).disk
    · rw [if_neg hget, if_neg hpost]
      by_cases hhead : upper s.request.method = str "HEAD"
      · rw [if_pos hhead]
        rfl
      · rw [if_neg hhead]
        rfl

/-! ### A run -/

/-- What serving the connection has written. -/
def Connection.writes (c : Connection) (disk : Disk) : List FileWrite :=
  match parsed c.socket with
  | (.ok true, s) => s.request.writes (c.between disk)
  | _ => []

/-- The step: serving a connection makes its writes and nothing else. -/
theorem serve_disk (c : Connection) (disk : Disk) :
    (c.serve disk).2.disk = (c.between disk).written (c.writes disk) := by
  have hfiles := (processRequest_files c.sortByDate c.socket (c.between disk)).2
  rw [Connection.serve, hfiles, Connection.writes]
  rcases parsed c.socket with ⟨e | ok, s⟩
  · rfl
  · cases ok with
    | false => rfl
    | true => exact methodHandler_disk (s.on c.sortByDate (c.between disk) [] {})

/-- The disk after a run, if no Lua error has ended the process. -/
def afterRun : List Connection → Disk → Option Disk
  | [], disk => some disk
  | c :: cs, disk =>
    match c.serve disk with
    | (.ok _, s) => afterRun cs s.disk
    | (.error _, _) => none

theorem afterRun_cons {c : Connection} {cs : List Connection} {disk : Disk}
    (h : (c.serve disk).1.isOk = true) :
    afterRun (c :: cs) disk = afterRun cs (c.serve disk).2.disk := by
  rw [afterRun]
  rcases hserve : c.serve disk with ⟨e | response, s⟩
  · rw [hserve] at h
    cases h
  · rfl

/-- All that a run has written, in order. -/
def runWrites : List Connection → Disk → List FileWrite
  | [], _ => []
  | c :: cs, disk => c.writes disk ++ runWrites cs (c.serve disk).2.disk

/-- Nobody else changes files before the connection is served. -/
def Connection.Alone (c : Connection) : Prop :=
  ∀ disk, (c.between disk).files = disk.files ∧ (c.between disk).cwd = disk.cwd

/-- The run refines the store: its files are those of the writes, one after another. -/
theorem afterRun_files {cs : List Connection} {disk disk' : Disk}
    (halone : ∀ c ∈ cs, c.Alone) (hrun : afterRun cs disk = some disk') :
    disk'.files = (runWrites cs disk).foldl Files.write disk.files ∧ disk'.cwd = disk.cwd := by
  induction cs generalizing disk with
  | nil =>
    obtain rfl := Option.some.inj hrun
    exact ⟨rfl, rfl⟩
  | cons c cs ih =>
    obtain ⟨hfiles, hcwd⟩ := halone c (List.mem_cons_self ..) disk
    have hstep := serve_disk c disk
    rw [afterRun] at hrun
    rw [runWrites, List.foldl_append]
    rcases hserve : c.serve disk with ⟨e | response, s⟩
    · rw [hserve] at hrun
      cases hrun
    · rw [hserve] at hrun hstep
      obtain ⟨hfiles', hcwd'⟩ := ih (fun d hd => halone d (List.mem_cons_of_mem _ hd)) hrun
      have hstep : s.disk = (c.between disk).written (c.writes disk) := hstep
      rw [hstep] at hfiles' hcwd'
      refine ⟨hfiles'.trans ?_, hcwd'.trans hcwd⟩
      simp only [Disk.written, hfiles, hstep]

/-- The text of a page after the run: that of its last write, or the one before the run. -/
def textAfter (cs : List Connection) (disk : Disk) (title : Bytes) : Option Bytes :=
  (lastText (runWrites cs disk) (resolve disk.cwd (pagePath title))).or
    (WikiStore.loadPage disk title)

theorem loadPage_afterRun {cs : List Connection} {disk disk' : Disk}
    (halone : ∀ c ∈ cs, c.Alone) (hrun : afterRun cs disk = some disk') (title : Bytes) :
    WikiStore.loadPage disk' title = textAfter cs disk title := by
  obtain ⟨hfiles, hcwd⟩ := afterRun_files halone hrun
  rw [textAfter, WikiStore.loadPage, WikiStore.loadPage, Disk.read, Disk.read, hfiles, hcwd,
    foldl_write]

/-- The HTML page of a title: with its text, or the one that says there is none. -/
def shownPage (disk : Disk) (title : Bytes) (text : Option Bytes) : Bytes :=
  match text with
  | some text => renderedPage disk title text
  | none => createHtmlPage (str "Not found " ++ title) (notFoundPageTemplate .wiki title)

/-- A connection that sends a GET request for the page. -/
structure RequestsPage (sock : Socket) (title : Bytes) : Prop where
  ok : (parsed sock).1 = .ok true
  method : upper (parsed sock).2.request.method = str "GET"
  uri : (parsed sock).2.request.uri = str "/" ++ title

/-- A GET of a page is answered with the page of its text. -/
theorem answered_shownPage (sortByDate : DateSort) {disk : Disk} {title : Bytes} {sock : Socket}
    (ht : IsWikiWord title) (hs : isSpecialPage title = false) (hget : RequestsPage sock title) :
    AnsweredWith ((parsed sock).2.on sortByDate disk [] {})
      (shownPage disk title (WikiStore.loadPage disk title)) := by
  have hasks : Asks ((parsed sock).2.on sortByDate disk [] {}) disk (str "/" ++ title) :=
    hget.uri ▸ asks_parsed hget.ok sortByDate disk
  have hnone : specialPageCreator title = none := by simpa [isSpecialPage] using hs
  cases hload : WikiStore.loadPage disk title with
  | some text =>
    obtain ⟨s', hstored, hstatus⟩ := wikiPage_stored hasks ht hnone hload
    exact handleGetRequest_answered hstored hstatus
  | none =>
    obtain ⟨htitle, hview⟩ := asks_title hasks ht
    have hmissing := wikiPage_missing (s := (parsed sock).2.on sortByDate disk [] {})
      (by rw [htitle]; exact isValidTitle_iff.mpr ht) (by rw [htitle]; exact hnone)
      (by rw [htitle, hasks.disk]; exact hload)
    rw [htitle, hview] at hmissing
    exact handleGetRequest_answered hmissing hasks.status

/-- After any run a GET of a page shows the text of its last write. -/
theorem get_afterRun {cs : List Connection} {disk disk' : Disk} {title : Bytes} {sock : Socket}
    (sortByDate : DateSort) (halone : ∀ c ∈ cs, c.Alone) (hrun : afterRun cs disk = some disk')
    (ht : IsWikiWord title) (hs : isSpecialPage title = false) (hget : RequestsPage sock title) :
    (processRequest sortByDate sock disk').2.response.status = 200 ∧
      (processRequest sortByDate sock disk').2.response.content =
        shownPage disk' title (textAfter cs disk title) := by
  rw [← loadPage_afterRun halone hrun]
  exact processRequest_answered hget.ok hget.method (answered_shownPage sortByDate ht hs hget)

/-- A page saved twice. -/
theorem get_afterRun_foo_bar :
    let first : Connection :=
      ⟨⟨[str "POST / HTTP/1.1\r\nContent-Length: 30\r\n\r\naction=Save&text=x&page=FooBar"],
        by decide, fun n => some n.floor.toNat⟩, .insertion, id⟩
    let second : Connection :=
      ⟨⟨[str "POST / HTTP/1.1\r\nContent-Length: 30\r\n\r\naction=Save&text=y&page=FooBar"],
        by decide, fun n => some n.floor.toNat⟩, .insertion, id⟩
    let sock : Socket := ⟨[str "GET /FooBar HTTP/1.1\r\n\r\n"], by decide,
      fun n => some n.floor.toNat⟩
    ∃ disk', afterRun [first, second] .empty = some disk' ∧
      (processRequest .insertion sock disk').2.response.status = 200 ∧
      (processRequest .insertion sock disk').2.response.content =
        renderedPage disk' (str "FooBar") (str "y") := by
  intro first second sock
  have hrun : afterRun [first, second] .empty =
      some (second.serve (first.serve .empty).2.disk).2.disk := by
    rw [afterRun_cons (by decide +kernel), afterRun_cons (by decide +kernel), afterRun]
  have halone : ∀ c ∈ [first, second], c.Alone := by
    intro c hc disk
    rcases List.mem_pair.mp hc with rfl | rfl
    · exact ⟨rfl, rfl⟩
    · exact ⟨rfl, rfl⟩
  have htext : textAfter [first, second] .empty (str "FooBar") = some (str "y") := by
    decide +kernel
  have hword : IsWikiWord (str "FooBar") := isValidTitle_iff.mp (by decide)
  have hget : RequestsPage sock (str "FooBar") := ⟨by decide, by decide, by decide⟩
  have hshown := get_afterRun .insertion halone hrun hword (by decide) hget
  rw [htext] at hshown
  exact ⟨_, hrun, hshown⟩

end MoonWiki
