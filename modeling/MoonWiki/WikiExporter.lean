import MoonWiki.WikiEngine

/-! `WikiExporter.lua`, and `doExport` of `main.lua`. -/
namespace MoonWiki
open Lua

/-- The options `-e` and `-r`. -/
structure ExportConfig where
  exportDir : Bytes
  exportReverseLink : Bool := false

/-- An exporter: its engine, and the trace of the calls of `saveHtmlFile`. -/
structure ExportState where
  engine : State
  saved : List (Bytes × Option Bytes) := []

abbrev ExportAction := Run ExportState LuaError

/-- Calls a method that the exporter inherits from the engine. -/
def inherited {α : Type} (x : Action α) : ExportAction α := fun s =>
  let (result, engine) := x s.engine
  (result, { s with engine })

/-- What a listing function gives for a file: its name, or a table from its date to its name. -/
inductive ListedFile
  | name (fileName : Bytes)
  | entry (file : FileEntry)

/-- The names the exporter calls that neither it nor the engine has to define; `none` is `nil`. -/
structure ExporterLinks where
  findMatchingFiles : Option (Disk → Bytes → List ListedFile)
  processWikiPage : Option (Bytes → Option Bytes → Action (Option Bytes))

/-- `initLua` registers `findFiles`, `readFromSocket` and `copyFile`, and no class has a method
`processWikiPage`. -/
def exporterLinks : ExporterLinks := ⟨none, none⟩

namespace WikiExporter

def new (sortByDate : DateSort) (disk : Disk) : ExportState :=
  { engine := { sortByDate, socket := .closed, disk } }

def setFormatter : ExportAction Unit :=
  Run.modify fun s =>
    { s with engine := { s.engine with formatter := .exporting, formatterState := {} } }

/-- `file:write` fails on `nil`, after the file has been truncated. -/
def saveHtmlFile (dir title : Bytes) (content : Option Bytes) : ExportAction Bool := fun s =>
  let filePath := dir ++ str "/" ++ title ++ serverConfig.exportSuffix
  let (opened, disk) := s.engine.disk.write filePath (content.getD [])
  let s := { s with
    saved := s.saved ++ [(title, content)]
    engine := { s.engine with disk, opened := s.engine.opened ++ [(.write, filePath)] } }
  if opened ∧ content = none then (.error .badArgument, s) else (.ok opened, s)

/-- `string.find` takes no table. -/
def listedFileTitle : ListedFile → ExportAction (Option Bytes)
  | .name fileName => return getNameWithoutSuffix fileName
  | .entry _ => Run.error .badArgument

def setParameter (name : String) (value : Bytes) : Action Unit :=
  setRequest fun r => { r with parameters := r.parameters.set (str name) value }

/-- A page and, if it is asked for, the page of its reverse links. -/
def exportPage (links : ExporterLinks) (config : ExportConfig) (pageTitle : Bytes) :
    ExportAction Unit := do
  let content ← inherited (loadPage (some pageTitle))
  match links.processWikiPage with
  | none => Run.error .callNil
  | some processWikiPage =>
    let page ← inherited (processWikiPage pageTitle content)
    let _ ← saveHtmlFile config.exportDir pageTitle page
    if config.exportReverseLink then
      inherited (setParameter "page" pageTitle)
      let reverseLinkPage ← inherited createSpecialReverseLink
      let _ ← saveHtmlFile config.exportDir (pageTitle ++ str "-ReverseLink") reverseLinkPage

def exportFiles (links : ExporterLinks) (config : ExportConfig) :
    List ListedFile → ExportAction Unit
  | [] => return ()
  | file :: files => do
    let pageTitle ← listedFileTitle file
    if ← inherited (isValidPage pageTitle) then exportPage links config (pageTitle.getD [])
    exportFiles links config files

def exportAllPages (links : ExporterLinks) (config : ExportConfig) : ExportAction Unit := do
  match links.findMatchingFiles with
  | none => Run.error .callNil
  | some findMatchingFiles =>
    let disk := (← Run.get).engine.disk
    exportFiles links config
      (findMatchingFiles disk (serverConfig.rootDir ++ str "/*" ++ serverConfig.suffix))

def exportSpecialPages (config : ExportConfig) : ExportAction Unit := do
  let page ← inherited createSpecialIndexPage
  let _ ← saveHtmlFile config.exportDir (str "IndexPage") page
  let page ← inherited createSpecialRecentChanges
  let _ ← saveHtmlFile config.exportDir (str "RecentChanges") page

/-- The result of `copyFile` is only printed. -/
def copyToExportDir (file dir : Bytes) : ExportAction Unit :=
  Run.modify fun s =>
    match s.engine.disk.read (serverConfig.rootDir ++ str "/" ++ file) with
    | none => s
    | some content =>
      let disk := (s.engine.disk.write (dir ++ str "/" ++ file) content).2
      { s with engine := { s.engine with disk } }

def copyAdditionalFiles (config : ExportConfig) : ExportAction Unit := do
  copyToExportDir serverConfig.logoFile config.exportDir
  copyToExportDir serverConfig.cssStyles config.exportDir

end WikiExporter

/-- `doExport`, on an exporter that has just been created. -/
def doExport (links : ExporterLinks) (config : ExportConfig) : ExportAction Unit := do
  WikiExporter.setFormatter
  WikiExporter.exportAllPages links config
  WikiExporter.exportSpecialPages config
  WikiExporter.copyAdditionalFiles config

/-! ### What an export should write -/

/-- The listed pages that are valid and exist, in the order of the listing. -/
def listedPages (d : Disk) : List Bytes :=
  ((pageFiles d).filterMap fun file => getNameWithoutSuffix file.name).filter
    fun t => isValidTitle t && WikiStore.topicExists d t

def exportedTitles (d : Disk) : List Bytes := (listedPages d).dedup

/-- The titles of the files of an export, each file once. -/
def exportedFiles (config : ExportConfig) (d : Disk) : List Bytes :=
  exportedTitles d ++
    (if config.exportReverseLink then (exportedTitles d).map (· ++ str "-ReverseLink") else []) ++
    [str "IndexPage", str "RecentChanges"]

/-- The exported rendering of a page. -/
def exportedPage (d : Disk) (title : Bytes) : Bytes :=
  createHtmlPage title
    (wikiPageTemplate (formatterEnv .exporting d) title ((WikiStore.loadPage d title).getD []) {}).1

/-- An export that has come to its end and saved each file once, pages as they are rendered. -/
structure ExportComplete (config : ExportConfig) (d : Disk)
    (outcome : Except LuaError Unit × ExportState) : Prop where
  ended : outcome.1 = .ok ()
  calls : (outcome.2.saved.map Prod.fst).Perm (exportedFiles config d)
  pages : ∀ title ∈ exportedTitles d, ∀ content,
    (title, content) ∈ outcome.2.saved → content = some (exportedPage d title)

/-- Without a function that lists the files an export does nothing but set its formatter. -/
theorem doExport_unlinked {links : ExporterLinks} (h : links.findMatchingFiles = none)
    (config : ExportConfig) (s : ExportState) :
    doExport links config s = (.error .callNil, { s with
      engine := { s.engine with formatter := .exporting, formatterState := {} } }) := by
  have hset : WikiExporter.setFormatter s = (.ok (), { s with
      engine := { s.engine with formatter := .exporting, formatterState := {} } }) := rfl
  have hall : WikiExporter.exportAllPages links config = Run.error .callNil := by
    rw [WikiExporter.exportAllPages, h]
  rw [doExport, Run.bind_ok hset, hall]
  exact Run.bind_error rfl

/-- No export of the repository as it stands is complete. -/
theorem doExport_not_complete (config : ExportConfig) (sortByDate : DateSort) (d : Disk) :
    ¬ ExportComplete config d (doExport exporterLinks config (WikiExporter.new sortByDate d)) := by
  intro h
  have hended := h.ended
  rw [doExport_unlinked rfl] at hended
  cases hended

/-- One readable page on a disk that takes every write. -/
theorem doExport_one_page_not_complete :
    let d : Disk := { Disk.empty with
      files := fun l => if l = resolve [] (pagePath (str "FooBar")) then some [] else none
      listing := fun _ => [⟨str "2024-01-01  00:00", str "FooBar.txt"⟩] }
    exportedTitles d = [str "FooBar"] ∧
      (doExport exporterLinks ⟨str "out", false⟩ (WikiExporter.new .insertion d)).1 ≠ .ok () ∧
      ¬ ExportComplete ⟨str "out", false⟩ d
        (doExport exporterLinks ⟨str "out", false⟩ (WikiExporter.new .insertion d)) := by
  refine ⟨by decide +kernel, by decide, fun h => ?_⟩
  cases h.ended

end MoonWiki
