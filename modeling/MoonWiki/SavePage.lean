import MoonWiki.PostHandlers

/-! When `savePage` tells the truth about what is on the disk. -/
namespace MoonWiki
open Lua

variable {d : Disk} {s : State} {title content : Bytes}

/-- The text with every CR removed. -/
def withoutCR (content : Bytes) : Bytes := content.filter (· ≠ 13)

theorem stripCR_eq (content : Bytes) : WikiStore.stripCR content = withoutCR content := by
  have hp : pat "\r" = ⟨false, [.single (.lit 13) .one]⟩ := by decide
  rw [WikiStore.stripCR, hp, gsubStr_single (.lit 13) (by simp)]
  induction content with
  | nil => rfl
  | cons b content ih =>
    by_cases hb : b = 13
    · subst hb
      simpa [singleMatch, withoutCR] using ih
    · have hb' : ¬ 13 = b := fun h => hb h.symm
      simpa [singleMatch, withoutCR, hb, hb'] using ih

/-- The disk takes all of the bytes if it opens the file at all. -/
def WriteOutcome.Whole (o : WriteOutcome) (n : Nat) : Prop :=
  match o with
  | .openFails => True
  | .accepts k => n ≤ k

/-- What `savePage` reports is what a following `loadPage` finds: after a success the text
without CR, after a failure the old page; and the two saving handlers redirect the client
only in the first case. -/
structure SavesHonestly (d : Disk) (title content : Bytes) : Prop where
  saved : (WikiStore.savePage d title content).1 = true →
    WikiStore.loadPage (WikiStore.savePage d title content).2 title = some (withoutCR content)
  kept : (WikiStore.savePage d title content).1 = false →
    WikiStore.loadPage (WikiStore.savePage d title content).2 title = WikiStore.loadPage d title
  reported : ∀ s : State, s.disk = d →
    s.request.form.get (str "text") = some content →
    s.request.form.get (str "page") = some title →
    ∀ handler ∈ [postHandlerSave, postHandlerCheckpoint], ∀ result s',
      handler s = (result, s') →
      if s'.response.status = 303 then
        WikiStore.loadPage s'.disk title = some (withoutCR content)
      else WikiStore.loadPage s'.disk title = WikiStore.loadPage d title

theorem savePage_openFails (h : d.writing = .openFails) :
    WikiStore.savePage d title content = (false, d) := by
  simp [WikiStore.savePage, Disk.write, h]

theorem savePage_accepts {k : Nat} (h : d.writing = .accepts k) :
    WikiStore.savePage d title content =
      (true, d.put (pagePath title) ((withoutCR content).take k)) := by
  simp [WikiStore.savePage, Disk.write, h, stripCR_eq]

theorem loadPage_put (title content : Bytes) :
    WikiStore.loadPage (d.put (pagePath title) content) title = some content := by
  simp [WikiStore.loadPage]

theorem savesHonestly_of_openFails (h : d.writing = .openFails) :
    SavesHonestly d title content where
  saved hs := by simp [savePage_openFails h] at hs
  kept _ := by rw [savePage_openFails h]
  reported s hd ht hp handler hh result s' hrun := by
    have hsave : WikiStore.savePage s.disk title content = (false, s.disk) :=
      savePage_openFails (hd ▸ h)
    have hs' : s' = (s.saved title content).failed 500 := by
      rcases List.mem_pair.mp hh with rfl | rfl
      · rw [postHandlerSave_some ht hp, hsave] at hrun
        exact (Prod.mk.inj hrun).2.symm
      · rw [postHandlerCheckpoint_some ht hp, hsave] at hrun
        exact (Prod.mk.inj hrun).2.symm
    have hdisk : s'.disk = d := by
      rw [hs', ← hd]
      exact congrArg Prod.snd hsave
    have hstatus : s'.response.status = 500 := by rw [hs']; rfl
    simp [hstatus, hdisk]

theorem savesHonestly_of_whole {k : Nat} (h : d.writing = .accepts k)
    (hk : (withoutCR content).length ≤ k) : SavesHonestly d title content := by
  have htake : (withoutCR content).take k = withoutCR content := List.take_of_length_le hk
  have hload : WikiStore.loadPage (WikiStore.savePage d title content).2 title =
      some (withoutCR content) := by
    rw [savePage_accepts h, htake, loadPage_put]
  refine ⟨fun _ => hload, fun hs => by simp [savePage_accepts h] at hs, ?_⟩
  intro s hd ht hp handler hh result s' hrun
  have hsave : (WikiStore.savePage s.disk title content).1 = true := by
    rw [savePage_accepts (hd ▸ h)]
  have hs' : s'.response.status = 303 ∧ s'.disk = (s.saved title content).disk := by
    rcases List.mem_pair.mp hh with rfl | rfl
    · rw [postHandlerSave_some ht hp, if_pos hsave] at hrun
      rw [← (Prod.mk.inj hrun).2]
      exact ⟨rfl, rfl⟩
    · rw [postHandlerCheckpoint_some ht hp, if_pos hsave] at hrun
      rw [← (Prod.mk.inj hrun).2]
      exact ⟨rfl, rfl⟩
  rw [if_pos hs'.1, hs'.2, State.saved, hd]
  exact hload

/-- The reports are true exactly when no write is cut short. -/
theorem savesHonestly_iff :
    SavesHonestly d title content ↔ d.writing.Whole (withoutCR content).length := by
  cases h : d.writing with
  | openFails => exact iff_of_true (savesHonestly_of_openFails h) trivial
  | accepts k =>
    constructor
    · intro hs
      have hload := hs.saved (by rw [savePage_accepts h])
      rw [savePage_accepts h, loadPage_put] at hload
      have hlen := congrArg List.length (Option.some.inj hload)
      rw [List.length_take] at hlen
      change (withoutCR content).length ≤ k
      omega
    · exact savesHonestly_of_whole h

/-- A disk that takes one byte of a page of five: success is reported and the page is lost. -/
theorem savePage_cut_short :
    let d : Disk :=
      { cwd := [], files := fun _ => some (str "old"), listing := fun _ => [],
        writing := .accepts 1 }
    (WikiStore.savePage d (str "FooBar") (str "hello")).1 = true ∧
    WikiStore.loadPage (WikiStore.savePage d (str "FooBar") (str "hello")).2 (str "FooBar") =
      some (str "h") ∧
    ¬ SavesHonestly d (str "FooBar") (str "hello") := by
  intro d
  refine ⟨rfl, ?_, ?_⟩
  · rw [savePage_accepts rfl, loadPage_put]
    decide
  · rw [savesHonestly_iff]
    change ¬ (withoutCR (str "hello")).length ≤ 1
    decide

end MoonWiki
