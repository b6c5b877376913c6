import MoonWiki.ProgramRuns
import MoonWiki.TableSort

/-! What a client of the running program receives. -/
namespace MoonWiki
open Lua

variable {sock : Socket} {sortByDate : DateSort} {disk : Disk} {html : Bytes} {s : State}

theorem handleGetRequest_page {s' : State} (h : wikiPage s = (.ok (some html), s')) :
    (handleGetRequest s).2.response.header =
      createHttpHeader s'.response.status s'.response.contentType html.length := by
  rw [handleGetRequest, Run.bind_ok h]
  rfl

/-- The whole response to a GET that is answered with a page. -/
theorem processRequest_page (hok : (parsed sock).1 = .ok true)
    (hget : upper (parsed sock).2.request.method = str "GET")
    (h : AnsweredWith ((parsed sock).2.on sortByDate disk [] {}) html) {response : Bytes × Nat}
    (hresponse : (processRequest sortByDate sock disk).1 = .ok response) :
    ∃ contentType, response.1 =
      createHttpHeader 200 contentType html.length ++ str "\r\n" ++ html := by
  obtain ⟨hpage, s', hs', hstatus, hcontent⟩ := h
  have hmethod : upper ((parsed sock).2.on sortByDate disk [] {}).request.method = str "GET" := hget
  have hrun : answer (WikiEngine.new sortByDate sock disk) = (.ok true, s') := by
    rw [answer, Run.bind_apply, parseHttpRequest_new, hok]
    simp only [Bool.not_true, Bool.false_eq_true, ↓reduceIte, Run.bind_apply, Run.get_apply,
      hmethod, methodHandler]
    exact hs'
  rcases hwiki : wikiPage ((parsed sock).2.on sortByDate disk [] {}) with ⟨r, s₁⟩
  rw [hwiki] at hpage
  obtain rfl : r = .ok (some html) := hpage
  have hheader := handleGetRequest_page hwiki
  have hsame : s'.response.status = s₁.response.status := by
    rw [handleGetRequest, Run.bind_ok hwiki] at hs'
    rw [← (Prod.mk.inj hs').2]
  rw [hs'] at hheader
  rw [processRequest_eq, Run.bind_ok hrun] at hresponse
  obtain rfl := Except.ok.inj hresponse
  refine ⟨s₁.response.contentType, ?_⟩
  rw [← hstatus, hsame, ← hheader, ← hcontent]

variable {outside : Outside} {args : List Bytes} {n : Nat} {bytes : Bytes}

/-- What is sent to a client in a run of the program is what `send` takes of the response to it. -/
theorem main_sent (hsend : .send n bytes ∈ (main outside args { disk }).2.events) :
    Sent outside.clients disk n bytes := by
  by_cases h : ∃ items, IsSequence args items
  · obtain ⟨items, hitems⟩ := h
    rcases main_stops hitems _ rfl with ⟨_, _, _, hfalse⟩ | ⟨stop, s, hrun, m, hm, _⟩
    · exact hfalse.elim
    · rw [hrun] at hsend
      exact (Service.run_history hm).sent n bytes hsend
  · rcases main_quits h _ rfl with ⟨_, _, _, hfalse⟩ | ⟨stop, s, hrun, _, hearly⟩
    · exact hfalse.elim
    · rw [hrun] at hsend
      exact (hearly.events _ hsend).elim

end MoonWiki
