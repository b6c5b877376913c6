import MoonWiki.RenderHistory

/-! The internal links of a page. -/
namespace MoonWiki
open Lua

variable {env : FormatterEnv} {st : FormatterState}

/-! ### One link -/

/-- The arguments of a call of `internalLink`. -/
structure LinkCall where
  topic : Bytes
  anchor : Option Bytes := none
  text : Option Bytes := none
  deriving DecidableEq, Repr

/-- What a link leads to: a special page, an existing page, or a page that is to be written. -/
inductive LinkTarget
  | special
  | existing (theTopic : Bytes)
  | missing
  deriving DecidableEq, Repr

/-- The existing page for a topic: of that name, or of its singular. -/
def existingTopic (env : FormatterEnv) (theTopic : Bytes) : Option Bytes :=
  if env.topicExists theTopic then some theTopic
  else if lastByte theTopic = str "s" ∧ env.topicExists (singular theTopic) then
    some (singular theTopic)
  else none

namespace LinkCall

def target (env : FormatterEnv) (call : LinkCall) : LinkTarget :=
  if env.isSpecialPage call.topic then .special
  else match existingTopic env call.topic with
    | some theTopic => .existing theTopic
    | none => .missing

theorem target_special {call : LinkCall} (h : call.target env = .special) :
    env.isSpecialPage call.topic = true := by
  by_contra hnone
  rw [target, if_neg hnone] at h
  cases ht : existingTopic env call.topic <;> simp [ht] at h

theorem target_existing {call : LinkCall} {t : Bytes} (h : call.target env = .existing t) :
    env.topicExists t = true := by
  rw [target] at h
  split_ifs at h
  cases ht : existingTopic env call.topic with
  | none => simp [ht] at h
  | some t' =>
    rw [ht] at h
    obtain rfl := LinkTarget.existing.inj h
    rw [existingTopic] at ht
    split_ifs at ht with hone hother
    · obtain rfl := Option.some.inj ht
      exact hone
    · obtain rfl := Option.some.inj ht
      exact hother.2

/-- The topics that are looked up for a link. -/
def probes (env : FormatterEnv) (call : LinkCall) : List Bytes :=
  if env.cls = .printable ∨ env.isSpecialPage call.topic then []
  else call.topic ::
    if !env.topicExists call.topic && lastByte call.topic = str "s" then [singular call.topic]
    else []

def withAnchor (call : LinkCall) (theTopic : Bytes) : Bytes :=
  match call.anchor with
  | some a => theTopic ++ str "#" ++ a
  | none => theTopic

/-- The value of the attribute `href` of a link, if the formatter renders one. -/
def href (env : FormatterEnv) (call : LinkCall) : Option Bytes :=
  match env.cls, call.target env with
  | .printable, _ => none
  | _, .special => some (formatS call.topic)
  | .exporting, .existing t => some (formatS (call.withAnchor t ++ serverConfig.exportSuffix))
  | .wiki, .existing t => some (formatS (call.withAnchor t))
  | .exporting, .missing => none
  | .wiki, .missing => some (formatS (str "EditPage?page=" ++ call.topic))

end LinkCall

/-- The existing page is found by the lookups of `internalLink`. -/
theorem WikiFormatter.internalLink_eq (env : FormatterEnv) (call : LinkCall)
    (st : FormatterState) :
    (WikiFormatter.internalLink env call.topic call.anchor call.text st).1 =
      match call.target env with
      | .special => htk "A" [("class", str "twikiLink"), ("href", call.topic)] [call.topic]
      | .existing t => existentPageLink env.cls (call.withAnchor t)
          (call.text.getD (call.withAnchor call.topic))
      | .missing => nonExistentPageLink env.cls call.topic (call.text.getD call.topic) := by
  obtain ⟨topic, anchor, text⟩ := call
  rw [WikiFormatter.internalLink, LinkCall.target]
  dsimp only [probe]
  cases env.isSpecialPage topic with
  | true => rfl
  | false =>
    simp only [Bool.false_eq_true, ↓reduceIte, existingTopic]
    cases env.topicExists topic with
    | true => cases anchor <;> cases text <;> rfl
    | false =>
      by_cases hs : lastByte topic = str "s"
      · simp only [hs, Bool.not_false, decide_true, Bool.and_self, ↓reduceIte, Bool.false_eq_true,
          true_and]
        cases env.topicExists (singular topic) with
        | true => cases anchor <;> cases text <;> rfl
        | false => rfl
      · simp [hs]

theorem WikiFormatter.internalLink_state (call : LinkCall) (hcls : env.cls ≠ .printable) :
    (WikiFormatter.internalLink env call.topic call.anchor call.text st).2 =
      { st with probed := st.probed ++ call.probes env } := by
  obtain ⟨topic, anchor, text⟩ := call
  rw [WikiFormatter.internalLink, LinkCall.probes]
  dsimp only [probe]
  cases env.isSpecialPage topic with
  | true => simp
  | false =>
    simp only [Bool.false_eq_true, ↓reduceIte, hcls, or_self]
    cases env.topicExists topic with
    | true => simp
    | false =>
      by_cases hs : lastByte topic = str "s"
      · simp only [hs, Bool.not_false, decide_true, Bool.and_self, ↓reduceIte]
        cases env.topicExists (singular topic) <;> simp
      · simp [hs]

theorem internalLink_state (env : FormatterEnv) (st : FormatterState) (call : LinkCall) :
    (internalLink env call.topic call.anchor call.text st).2 =
      { st with probed := st.probed ++ call.probes env } := by
  cases hcls : env.cls with
  | printable => simp [internalLink, hcls, LinkCall.probes]
  | wiki =>
    rw [internalLink, hcls]
    exact WikiFormatter.internalLink_state call (by simp [hcls])
  | exporting =>
    rw [internalLink, hcls]
    exact WikiFormatter.internalLink_state call (by simp [hcls])

theorem href_infix_htk {field : String} {attrs : List (String × Bytes)} {contain : List Bytes}
    {v : Bytes} (h : ("href", v) ∈ attrs) :
    str " href=\"" ++ formatS v ++ str "\"" <:+: htk field attrs contain := by
  have hname : str " " ++ formatS (str "href") ++ str "=\"" = str " href=\"" := by decide
  obtain ⟨before, after, rfl⟩ := List.append_of_mem h
  refine ⟨str "<" ++ str field ++ before.flatMap fun a => attr a.1 a.2, ?_⟩
  rw [← hname]
  simp [htk_eq, attr]

theorem infix_htk_of_mem {field : String} {attrs : List (String × Bytes)} {contain : List Bytes}
    {x : Bytes} (h : x ∈ contain) : x <:+: htk field attrs contain := by
  obtain ⟨before, after, rfl⟩ := List.append_of_mem h
  refine ⟨str "<" ++ str field ++ (attrs.flatMap fun a => attr a.1 a.2) ++ str ">" ++
    before.flatten, ?_⟩
  simp [htk_eq]

/-- A link has its `href` in its text; without one it is plain text. -/
theorem internalLink_href (env : FormatterEnv) (call : LinkCall) (st : FormatterState) :
    match call.href env with
    | some h => str " href=\"" ++ h ++ str "\"" <:+:
        (internalLink env call.topic call.anchor call.text st).1
    | none => (internalLink env call.topic call.anchor call.text st).1 =
        call.text.getD call.topic := by
  have heq := WikiFormatter.internalLink_eq env call st
  cases hcls : env.cls with
  | printable => simp [LinkCall.href, internalLink, hcls]
  | wiki =>
    simp only [LinkCall.href, internalLink, hcls, heq]
    cases call.target env with
    | special => exact href_infix_htk (by simp)
    | existing t => exact href_infix_htk (by simp)
    | missing =>
      refine List.IsInfix.trans ?_
        (infix_htk_of_mem (List.mem_cons_of_mem _ (List.mem_cons_self ..)))
      exact href_infix_htk (by simp)
  | exporting =>
    simp only [LinkCall.href, internalLink, hcls, heq]
    cases call.target env with
    | special => exact href_infix_htk (by simp)
    | existing t => exact href_infix_htk (by simp)
    | missing => rfl

/-! ### The links of a line -/

/-- The link `[[link][text]]`, unless a scheme makes it external. -/
def bracketCall (c : List Bytes) : Option LinkCall :=
  let theLink := gsubStr (pat "^%s*") [] (c.getD 0 [])
  let theLink := gsubStr (pat "%s*$") [] theLink
  if found (pat "^%w+:") theLink then none
  else
    let anchorPattern := pat "#(%u+%l+%u+[%a%d]*)"
    some ⟨gsub anchorPattern (fun _ => []) theLink,
      (gfind anchorPattern theLink).getLast?.bind List.head?, some (c.getD 1 [])⟩

def bracketCalls (line : Bytes) : List LinkCall :=
  (gfind (pat "%[%[([^%]]+)%]%[([^%]]+)%]%]") line).filterMap bracketCall

/-- `Topic#Anchor`. -/
def anchoredCall (cs : List Bytes) : LinkCall := ⟨cs.getD 1 [], cs[2]?, none⟩

/-- `Topic`. -/
def plainCall (cs : List Bytes) : LinkCall := ⟨cs.getD 1 [], none, none⟩

/-- What is put for an automatic link. -/
def autoLink (env : FormatterEnv) (call : List Bytes → LinkCall) (cs : List Bytes)
    (st : FormatterState) : Bytes × FormatterState :=
  let (link, st) := internalLink env (call cs).topic (call cs).anchor (call cs).text st
  (cs.getD 0 [] ++ link, st)

def anchoredPattern : Pattern := pat "([%s(])(%u+%l+%u+[%a%d]*)#(%u+%l+%u+[%a%d]*)"
def plainPattern : Pattern := pat "([%s(])(%u+%l+%u+[%a%d]*)"

theorem autoLinks_eq (env : FormatterEnv) (line : Bytes) (st : FormatterState) :
    autoLinks env line st =
      if st.insideNoAutoLink then (line, st)
      else
        let anchored := gsubState anchoredPattern (autoLink env anchoredCall) line st
        gsubState plainPattern (autoLink env plainCall) anchored.1 anchored.2 := rfl

/-- The calls of `autoLinks` on a line. -/
def autoCalls (env : FormatterEnv) (line : Bytes) (st : FormatterState) : List LinkCall :=
  if st.insideNoAutoLink then []
  else
    let anchored := gsubState anchoredPattern (autoLink env anchoredCall) line st
    (gfind anchoredPattern line).map anchoredCall ++ (gfind plainPattern anchored.1).map plainCall

theorem specificLink_state (env : FormatterEnv) (c : List Bytes) (st : FormatterState) :
    (specificLink env (c.getD 0 []) (c.getD 1 []) st).2 =
      { st with probed := st.probed ++ (bracketCall c).toList.flatMap (LinkCall.probes env) } := by
  rw [specificLink, bracketCall]
  dsimp only
  split
  · simp
  · simpa using internalLink_state env st ⟨_, _, some (c.getD 1 [])⟩

theorem autoLink_state (call : List Bytes → LinkCall) (cs : List Bytes) :
    (autoLink env call cs st).2 = { st with probed := st.probed ++ (call cs).probes env } :=
  internalLink_state env st (call cs)

theorem foldl_probed {f : List Bytes → FormatterState → Bytes × FormatterState}
    {g : List Bytes → List Bytes}
    (h : ∀ cs st, (f cs st).2 = { st with probed := st.probed ++ g cs }) (l : List (List Bytes))
    (st : FormatterState) :
    l.foldl (fun st cs => (f cs st).2) st = { st with probed := st.probed ++ l.flatMap g } := by
  induction l generalizing st with
  | nil => simp
  | cons cs l ih => rw [List.foldl_cons, h, ih, List.append_assoc, List.flatMap_cons]

theorem hyperLinks_state (line : Bytes) :
    (hyperLinks env line st).2 =
      { st with probed := st.probed ++ (bracketCalls line).flatMap (LinkCall.probes env) } := by
  rw [hyperLinks, gsubState_snd,
    foldl_probed fun cs st => specificLink_state env cs st, bracketCalls,
    List.filterMap_eq_flatMap_toList, List.flatMap_assoc]

theorem autoLinks_state (line : Bytes) :
    (autoLinks env line st).2 =
      { st with probed := st.probed ++ (autoCalls env line st).flatMap (LinkCall.probes env) } := by
  rw [autoLinks_eq, autoCalls]
  split
  · simp
  · dsimp only
    rw [gsubState_snd, foldl_probed fun cs st => autoLink_state plainCall cs, gsubState_snd,
      foldl_probed fun cs st => autoLink_state anchoredCall cs]
    simp [List.flatMap_map]

/-! ### The links of a page -/

/-- A line before its links are rendered. -/
def styledLine (cls : FormatterClass) (line : Bytes) (st : FormatterState) :
    Bytes × FormatterState :=
  let row := processTableLine (beforeTables cls line) st
  let paragraph := paragraphs row.1 row.2
  let item := lists paragraph.1 paragraph.2
  (emphasis (str " " ++ anchors item.1 ++ str " "), item.2)

theorem formatWikiLine_styled (env : FormatterEnv) (line : Bytes) (st : FormatterState) :
    formatWikiLine env line st =
      let styled := styledLine env.cls line st
      let linked := hyperLinks env styled.1 styled.2
      let auto := autoLinks env linked.1 linked.2
      (percentVariables auto.1, auto.2) := by
  rw [formatWikiLine_eq]
  simp only [styledLine]

/-- The calls of `internalLink` on a line, those for brackets first. -/
def lineCalls (env : FormatterEnv) (line : Bytes) (st : FormatterState) : List LinkCall :=
  let styled := styledLine env.cls line st
  let linked := hyperLinks env styled.1 styled.2
  bracketCalls styled.1 ++ autoCalls env linked.1 linked.2

/-- One round of the loop of `formatWikiPage`, and the calls it makes. -/
def pageRound (env : FormatterEnv) (round : FormatterState × List LinkCall) (line : Bytes) :
    FormatterState × List LinkCall :=
  let st := lineModes line round.1
  (pageLine env line round.1, round.2 ++ if st.insidePre then [] else lineCalls env line st)

/-- The calls of `internalLink` of a formatter that renders a page. -/
def pageCalls (env : FormatterEnv) (content : Bytes) (st : FormatterState) : List LinkCall :=
  ((pageLines content).foldl (pageRound env) ({ st with isList := false, result := {} }, [])).2

theorem openLevels_probed (theType theElement theOlType : Bytes) (n : Nat) (firstTime : Bool)
    (st : FormatterState) (result : StringBuffer) :
    (openLevels theType theElement theOlType n firstTime st result).1.probed = st.probed := by
  induction n generalizing st firstTime result with
  | zero => rfl
  | succ n ih => rw [openLevels, ih]

theorem closeLevels_probed (n : Nat) (st : FormatterState) (result : StringBuffer) :
    (closeLevels n st result).1.probed = st.probed := by
  induction n generalizing st result with
  | zero => rfl
  | succ n ih => rw [closeLevels, ih]

theorem emitList_probed (theType theElement : Bytes) (theDepth : Nat) (theOlType : Option Bytes)
    (st : FormatterState) :
    (emitList theType theElement theDepth theOlType st).2.probed = st.probed := by
  rw [emitList]
  dsimp only
  split <;> split_ifs <;> simp [openLevels_probed, closeLevels_probed]

theorem listItem_probed (p : Pattern) (theType line : Bytes) (st : FormatterState) :
    (listItem p theType line st).2.probed = st.probed :=
  gsubState_preserves (P := fun st' : FormatterState => st'.probed = st.probed)
    (fun _ _ hst => (emitList_probed ..).trans hst) line rfl

theorem styledLine_probed (cls : FormatterClass) (line : Bytes) (st : FormatterState) :
    (styledLine cls line st).2.probed = st.probed := by
  have hrow : ∀ line, (processTableLine line st).2.probed = st.probed := by
    intro line
    rw [processTableLine]
    split
    · split <;> rfl
    · rfl
  have hparagraph : ∀ line (st : FormatterState), (paragraphs line st).2.probed = st.probed := by
    intro line st
    rw [paragraphs]
    dsimp only
    split_ifs <;> rfl
  have hlists : ∀ line (st : FormatterState), (lists line st).2.probed = st.probed := by
    intro line st
    rw [lists]
    dsimp only
    split_ifs <;> simp [emitList_probed, listItem_probed, FormatterState.addString]
  rw [styledLine]
  dsimp only
  rw [hlists, hparagraph, hrow]

theorem formatWikiLine_probed (line : Bytes) :
    (formatWikiLine env line st).2.probed =
      st.probed ++ (lineCalls env line st).flatMap (LinkCall.probes env) := by
  rw [formatWikiLine_styled, lineCalls]
  dsimp only
  rw [autoLinks_state, hyperLinks_state, styledLine_probed, List.flatMap_append, List.append_assoc]

theorem pageRound_probed (line : Bytes) {round : FormatterState × List LinkCall}
    (h : round.1.probed = round.2.flatMap (LinkCall.probes env)) :
    (pageRound env round line).1.probed =
      (pageRound env round line).2.flatMap (LinkCall.probes env) := by
  obtain ⟨st, calls⟩ := round
  have hmodes : (lineModes line st).probed = st.probed := by
    rw [lineModes]
    split_ifs <;> rfl
  rw [pageRound, pageLine]
  generalize lineModes line st = st' at hmodes
  dsimp only at h ⊢
  cases hpre : st'.insidePre with
  | true =>
    simp only [↓reduceIte, List.append_nil]
    split_ifs <;> simp [FormatterState.addString, emitList_probed, hmodes, h]
  | false =>
    simp [FormatterState.addString, formatWikiLine_probed, hmodes, h]

theorem foldl_pageRound (env : FormatterEnv) (lines : List Bytes)
    (round : FormatterState × List LinkCall) :
    (lines.foldl (pageRound env) round).1 =
      lines.foldl (fun st l => pageLine env l st) round.1 := by
  induction lines generalizing round with
  | nil => rfl
  | cons l lines ih => rw [List.foldl_cons, ih, List.foldl_cons, pageRound]

/-- The topics that the rendering of a page looks up are those of its calls, in order. -/
theorem formatWikiPage_probed (env : FormatterEnv) (content : Bytes) (h : st.probed = []) :
    (formatWikiPage env content st).2.probed =
      (pageCalls env content st).flatMap (LinkCall.probes env) := by
  have hrounds : ∀ (lines : List Bytes) (round : FormatterState × List LinkCall),
      round.1.probed = round.2.flatMap (LinkCall.probes env) →
        (lines.foldl (pageRound env) round).1.probed =
          (lines.foldl (pageRound env) round).2.flatMap (LinkCall.probes env) := by
    intro lines
    induction lines with
    | nil => exact fun _ h => h
    | cons l lines ih =>
      intro round h
      rw [List.foldl_cons]
      exact ih _ (pageRound_probed l h)
  have hend : ∀ st : FormatterState, (pageEnd st).probed = st.probed := by
    intro st
    rw [pageEnd]
    dsimp only
    split_ifs <;> simp [FormatterState.addString, emitList_probed]
  have hlines := foldl_pageRound env (pageLines content)
    ({ st with isList := false, result := {} }, [])
  have hcalls := hrounds (pageLines content) ({ st with isList := false, result := {} }, []) h
  rw [hlines] at hcalls
  rw [formatWikiPage_eq, pageCalls, ← hcalls]
  dsimp only
  rw [hend]

end MoonWiki
