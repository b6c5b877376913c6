import MoonWiki.Lua.Matching
import MoonWiki.WikiEngine

/-! What the handlers of POST actions do, one equation for each way through them. -/
namespace MoonWiki
open Lua

variable {s : State} {title content : Bytes}

/-- The state after a redirection. -/
def State.redirected (s : State) (newPage : Bytes) : State :=
  { s with response := { s.response with status := 303, location := some newPage } }

/-- The state after an error status was set. -/
def State.failed (s : State) (status : Nat) : State :=
  { s with response := { s.response with status } }

@[simp] theorem setStatus_apply (status : Nat) (s : State) :
    setStatus status s = (.ok (), s.failed status) := rfl

@[simp] theorem openFile_apply (mode : Mode) (path : Bytes) (s : State) :
    openFile mode path s =
      (.ok (s.disk.read path), { s with opened := s.opened ++ [(mode, path)] }) := rfl

@[simp] theorem redirectToPage_apply (newPage : Bytes) (s : State) :
    redirectToPage newPage s = (.ok false, s.redirected newPage) := rfl

@[simp] theorem formField_some {name : String} {value : Bytes}
    (h : s.request.form.get (str name) = some value) : formField name s = (.ok value, s) := by
  simp [formField, Run.bind_apply, h]

theorem formField_none {name : String} (h : s.request.form.get (str name) = none) :
    formField name s = (.error .concatNil, s) := by
  simp [formField, Run.bind_apply, h]

/-- The state after `savePage` was called. -/
def State.saved (s : State) (title content : Bytes) : State :=
  { s with
    disk := (WikiStore.savePage s.disk title content).2
    opened := s.opened ++ [(.write, pagePath title)] }

theorem savePage_apply (title content : Bytes) (s : State) :
    savePage title content s =
      (.ok (WikiStore.savePage s.disk title content).1, s.saved title content) := rfl

theorem doSaveAfterEditing_some (ht : s.request.form.get (str "text") = some content)
    (hp : s.request.form.get (str "page") = some title) :
    doSaveAfterEditing s =
      if (WikiStore.savePage s.disk title content).1 then (.ok true, s.saved title content)
      else (.ok false, (s.saved title content).failed 500) := by
  simp only [doSaveAfterEditing, Run.bind_apply, Run.get_apply, ht, hp, savePage_apply]
  cases (WikiStore.savePage s.disk title content).1 <;> rfl

theorem doSaveAfterEditing_none
    (h : s.request.form.get (str "text") = none ∨ s.request.form.get (str "page") = none) :
    doSaveAfterEditing s = (.ok false, s.failed 400) := by
  simp only [doSaveAfterEditing, Run.bind_apply, Run.get_apply]
  cases ht : s.request.form.get (str "text") with
  | none => rfl
  | some content =>
    cases hp : s.request.form.get (str "page") with
    | none => rfl
    | some title => simp [ht, hp] at h

theorem postHandlerSave_some (ht : s.request.form.get (str "text") = some content)
    (hp : s.request.form.get (str "page") = some title) :
    postHandlerSave s =
      (.ok false,
        if (WikiStore.savePage s.disk title content).1 then
          (s.saved title content).redirected (str "/" ++ title)
        else (s.saved title content).failed 500) := by
  rw [postHandlerSave, Run.bind_apply, doSaveAfterEditing_some ht hp]
  cases (WikiStore.savePage s.disk title content).1 with
  | false => rfl
  | true =>
    have hp' : (s.saved title content).request.form.get (str "page") = some title := hp
    simp [Run.bind_apply, formField_some hp']

theorem postHandlerCheckpoint_some (ht : s.request.form.get (str "text") = some content)
    (hp : s.request.form.get (str "page") = some title) :
    postHandlerCheckpoint s =
      (.ok false,
        if (WikiStore.savePage s.disk title content).1 then
          (s.saved title content).redirected (str "EditPage?page=" ++ title)
        else (s.saved title content).failed 500) := by
  rw [postHandlerCheckpoint, Run.bind_apply, doSaveAfterEditing_some ht hp]
  cases (WikiStore.savePage s.disk title content).1 with
  | false => rfl
  | true =>
    have hp' : (s.saved title content).request.form.get (str "page") = some title := hp
    simp [Run.bind_apply, formField_some hp']

/-- Without a text or a page the saving handlers answer 400. -/
theorem saveHandlers_none {handler : Action Bool}
    (hh : handler ∈ [postHandlerSave, postHandlerCheckpoint])
    (h : s.request.form.get (str "text") = none ∨ s.request.form.get (str "page") = none) :
    handler s = (.ok false, s.failed 400) := by
  rcases List.mem_pair.mp hh with rfl | rfl
  · simp [postHandlerSave, Run.bind_apply, doSaveAfterEditing_none h]
  · simp [postHandlerCheckpoint, Run.bind_apply, doSaveAfterEditing_none h]

end MoonWiki
