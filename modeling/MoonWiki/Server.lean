import MoonWiki.OpenedFiles
import MoonWiki.RequestFraming

/-! The loop of `runServer` in `MoonWiki.c`: one request after another, on one disk. -/
namespace MoonWiki
open Lua

/-- An accepted connection, how `table.sort` orders files for it, and what happens to the disk
before it is served. -/
structure Connection where
  socket : Socket
  sortByDate : DateSort
  between : Disk → Disk

/-- The state in which a request ends, and whether it ended in a Lua error. -/
def Connection.serve (c : Connection) (disk : Disk) : Except LuaError (Bytes × Nat) × State :=
  processRequest c.sortByDate c.socket (c.between disk)

/-- The calls of `io.open` of a whole run. `doCall` ends the process at a Lua error. -/
def runServer : List Connection → Disk → List (Mode × Bytes)
  | [], _ => []
  | c :: cs, disk =>
    match c.serve disk with
    | (.ok _, s) => s.opened ++ runServer cs s.disk
    | (.error _, s) => s.opened

/-- The connections that are served before the process ends. -/
def served : List Connection → Disk → List Connection
  | [], _ => []
  | c :: cs, disk =>
    match c.serve disk with
    | (.ok _, s) => c :: served cs s.disk
    | (.error _, _) => [c]

/-! ### Parsing has nothing to do with files -/

variable {α β : Type}

/-- The same state with another disk, another trace and another formatter. -/
def State.on (s : State) (sortByDate : DateSort) (disk : Disk) (opened : List (Mode × Bytes))
    (formatterState : FormatterState) : State :=
  { s with sortByDate, disk, opened, formatterState }

/-- The action does the same on every disk, opens no file and formats nothing. -/
def IgnoresDisk (x : Action α) : Prop :=
  ∀ s sortByDate disk opened st,
    x (s.on sortByDate disk opened st) = ((x s).1, (x s).2.on sortByDate disk opened st)

theorem IgnoresDisk.bind {x : Action α} {f : α → Action β} (hx : IgnoresDisk x)
    (hf : ∀ a, IgnoresDisk (f a)) : IgnoresDisk (x >>= f) := by
  intro s sortByDate disk opened st
  rw [Run.bind_apply, Run.bind_apply, hx s sortByDate disk opened st]
  rcases x s with ⟨e | a, s'⟩
  · rfl
  · exact hf a s' sortByDate disk opened st

/-- What is read of the state must be none of these. -/
theorem IgnoresDisk.get_bind {f : State → Action β} (hf : ∀ s, IgnoresDisk (f s))
    (hon : ∀ (s : State) sortByDate disk opened st, f (s.on sortByDate disk opened st) = f s) :
    IgnoresDisk (Run.get >>= f) := by
  intro s sortByDate disk opened st
  rw [Run.bind_apply, Run.bind_apply, Run.get_apply, Run.get_apply]
  simp only [hon]
  exact hf s s sortByDate disk opened st

theorem IgnoresDisk.pure (a : α) : IgnoresDisk (Pure.pure a : Action α) := fun _ _ _ _ _ => rfl

theorem ignoresDisk_setRequest (f : Request → Request) : IgnoresDisk (setRequest f) :=
  fun _ _ _ _ _ => rfl

theorem ignoresDisk_setStatus (status : Nat) : IgnoresDisk (setStatus status) :=
  fun _ _ _ _ _ => rfl

theorem ignoresDisk_readBody : IgnoresDisk readBody := by
  refine .get_bind (fun s => ?_) fun _ _ _ _ _ => rfl
  split
  · exact .pure _
  · split
    · exact fun _ _ _ _ _ => rfl
    · have hform : IgnoresDisk (do
          setRequest fun r => { r with form := parseFields r.postData r.form }
          return true) := (ignoresDisk_setRequest _).bind fun _ => .pure _
      dsimp only
      split
      · refine .bind (fun _ _ _ _ _ => rfl : IgnoresDisk (readFrom _)) fun bytes => ?_
        cases bytes with
        | none => exact (ignoresDisk_setStatus 500).bind fun _ => .pure _
        | some bytes => exact (ignoresDisk_setRequest _).bind fun _ => hform
      · exact hform

theorem ignoresDisk_requestLine : IgnoresDisk (do
    setRequest parseRequestLine
    match httpMethods (upper (← Run.get).request.method) with
    | none => setStatus 400; return false
    | some false => setStatus 501; return false
    | some true =>
      setRequest parseHeaderFields
      readBody) := by
  refine (ignoresDisk_setRequest _).bind fun _ => .get_bind (fun s => ?_) fun _ _ _ _ _ => rfl
  split
  · exact (ignoresDisk_setStatus 400).bind fun _ => .pure _
  · exact (ignoresDisk_setStatus 501).bind fun _ => .pure _
  · exact (ignoresDisk_setRequest _).bind fun _ => ignoresDisk_readBody

theorem ignoresDisk_parseHttpRequest : IgnoresDisk parseHttpRequest := by
  refine .get_bind (fun s => ?_) fun _ _ _ _ _ => rfl
  dsimp only
  refine .bind (fun _ _ _ _ _ => rfl) fun _ => ?_
  split
  · exact (ignoresDisk_setStatus 500).bind fun _ => .pure _
  · split
    · exact (ignoresDisk_setRequest _).bind fun _ => ignoresDisk_requestLine
    · exact ignoresDisk_requestLine

/-- A request as it is parsed, whatever is on the disk. -/
def parsed (sock : Socket) : Except LuaError Bool × State :=
  parseHttpRequest (WikiEngine.new .insertion sock .empty)

theorem parseHttpRequest_new (sortByDate : DateSort) (sock : Socket) (disk : Disk) :
    parseHttpRequest (WikiEngine.new sortByDate sock disk) =
      ((parsed sock).1, (parsed sock).2.on sortByDate disk [] {}) :=
  ignoresDisk_parseHttpRequest (WikiEngine.new .insertion sock .empty) sortByDate disk [] {}

/-! ### A request and its handler -/

/-- `handleRequest` without the making of the response. -/
def answer : Action Bool := do
  if !(← parseHttpRequest) then return false
  else methodHandler (upper (← Run.get).request.method)

/-- The making of the response: an error page unless the handler did it. -/
def respond (result : Bool) : Action (Bytes × Nat) := do
  if !result then prepareErrorResponse
  let response := (← Run.get).response
  let responseData := response.header ++ str "\r\n" ++ response.content
  return (responseData, responseData.length)

theorem processRequest_eq (sortByDate : DateSort) (sock : Socket) (disk : Disk) :
    processRequest sortByDate sock disk =
      (answer >>= respond) (WikiEngine.new sortByDate sock disk) := by
  simp only [processRequest, handleRequest, answer, Run.bind_apply]
  rcases parseHttpRequest (WikiEngine.new sortByDate sock disk) with ⟨e | ok, s⟩
  · rfl
  · cases ok with
    | false =>
      simp only [respond, Run.bind_apply, Bool.not_false, ↓reduceIte, Run.pure_apply]
      rcases prepareErrorResponse s with ⟨e | _, s'⟩ <;> rfl
    | true =>
      simp only [Bool.not_true, Bool.false_eq_true, ↓reduceIte, Run.bind_apply, Run.get_apply]
      rcases methodHandler (upper s.request.method) s with ⟨e | result, s⟩
      · rfl
      · cases result with
        | true => rfl
        | false =>
          simp only [respond, Run.bind_apply, Bool.not_false, ↓reduceIte]
          rcases prepareErrorResponse s with ⟨e | _, s'⟩ <;> rfl

/-- The answer is made without opening a file. -/
def OpensNothing (x : Action α) : Prop := Reads (fun _ => False) x

theorem OpensNothing.after {x : Action α} {f : α → Action β} (hf : ∀ a, OpensNothing (f a))
    (s : State) :
    ((x >>= f) s).2.opened = (x s).2.opened ∧ ((x >>= f) s).2.disk = (x s).2.disk := by
  rw [Run.bind_apply]
  rcases x s with ⟨e | a, s'⟩
  · exact ⟨rfl, rfl⟩
  · obtain ⟨⟨paths, hopened, hpaths⟩, hdisk, _⟩ := hf a s'
    have hnil : paths = [] := List.eq_nil_iff_forall_not_mem.mpr hpaths
    rw [hnil, List.map_nil, List.append_nil] at hopened
    exact ⟨hopened, hdisk⟩

theorem opensNothing_respond (result : Bool) : OpensNothing (respond result) := by
  have hend : OpensNothing (do
      let response := (← Run.get).response
      let responseData := response.header ++ str "\r\n" ++ response.content
      return (responseData, responseData.length)) := .get_bind fun _ => .pure _
  have herror : OpensNothing prepareErrorResponse := by
    refine .get_bind fun s => .bind ?_ fun _ => .of_same fun _ => ⟨rfl, rfl, rfl⟩
    rw [createHttpErrorPage]
    split
    · exact .error _
    · exact .pure _
  cases result with
  | true => exact hend
  | false => exact herror.bind fun _ => hend

/-- What a request opens and leaves on the disk is what its handler opens and leaves. -/
theorem processRequest_files (sortByDate : DateSort) (sock : Socket) (disk : Disk) :
    let s := (parsed sock).2.on sortByDate disk [] {}
    let s' := match (parsed sock).1 with
      | .ok true => (methodHandler (upper s.request.method) s).2
      | _ => s
    (processRequest sortByDate sock disk).2.opened = s'.opened ∧
      (processRequest sortByDate sock disk).2.disk = s'.disk := by
  have hafter := OpensNothing.after (x := answer) opensNothing_respond
    (WikiEngine.new sortByDate sock disk)
  rw [processRequest_eq, hafter.1, hafter.2, answer, Run.bind_apply, parseHttpRequest_new]
  rcases (parsed sock).1 with e | ok
  · exact ⟨rfl, rfl⟩
  · cases ok with
    | false => exact ⟨rfl, rfl⟩
    | true => exact ⟨rfl, rfl⟩

end MoonWiki
