import MoonWiki.Config
import MoonWiki.Lua.Number

/-! The command line: `parseCommandLineArgs` of `main.lua` against its grammar. -/
namespace MoonWiki
open Lua

/-- `serverConfig` as the arguments set it; `server` holds the options that no argument sets. -/
structure CommandConfig where
  server : ServerConfig := {}
  exportDir : Option Bytes := none
  exportReverseLink : Bool := false
  clearLog : Bool := false
  logFile : Option Bytes := none
  port : Rat := 8080

/-- The options, and what was printed. -/
structure CommandState where
  config : CommandConfig := {}
  printed : List Bytes := []

/-- A comparison of `nil` with a number. -/
inductive CommandError
  | compareNil
  deriving DecidableEq, Repr

abbrev CommandAction := Run CommandState CommandError

def usage : Bytes :=
  str "usage:
    MoonWiki.exe [-p <port>] [-l <logfile>] [-c]    
    MoonWiki.exe -e <exportdir> [-r]
parameters:
    -p <port>      - port number (0 - 65535) for HTTP server;
    -l <logfile>   - log file name (defaults to stdout);
    -c             - clear log file before using it.
    -e <exportdir> - export all pages to static HTML files
    -r             - create reverse link pages
    Those and other options could be specified in \"config.lua\" file.
"

def printUsage : CommandAction Bool := do
  Run.modify fun s => { s with printed := s.printed ++ [usage] }
  return false

def setConfig (f : CommandConfig → CommandConfig) : CommandAction Unit :=
  Run.modify fun s => { s with config := f s.config }

/-- The loop from an argument on; no argument is `nil` and ends it. -/
def parseArguments : List Bytes → CommandAction Bool
  | [] => return true
  | argument :: args =>
    if argument = str "-e" then
      match args with
      | [] => printUsage
      | dir :: args => do
        setConfig fun c => { c with exportDir := some dir }
        parseArguments args
    else if argument = str "-r" then do
      setConfig fun c => { c with exportReverseLink := true }
      parseArguments args
    else if argument = str "-c" then do
      setConfig fun c => { c with clearLog := true }
      parseArguments args
    else if argument = str "-l" then
      match args with
      | [] => printUsage
      | file :: args => do
        setConfig fun c => { c with logFile := some file }
        parseArguments args
    else if argument = str "-p" then
      match args with
      | [] => printUsage
      | number :: args =>
        match toNumber number with
        | none => Run.error .compareNil
        | some port =>
          if port < 0 ∨ port > 65535 then printUsage
          else do
            setConfig fun c => { c with port }
            parseArguments args
    else printUsage

/-- The first argument is not checked for `nil`. -/
def parseCommandLineArgs (args : List Bytes) : CommandAction Bool :=
  if args = [] then printUsage else parseArguments args

/-! ### The grammar -/

inductive CommandItem
  | exportDir (dir : Bytes)
  | reverseLink
  | clearLog
  | logFile (file : Bytes)
  | port (number : Bytes) (value : Rat)
  deriving DecidableEq

namespace CommandItem

/-- The arguments of an item. -/
def args : CommandItem → List Bytes
  | exportDir dir => [str "-e", dir]
  | reverseLink => [str "-r"]
  | clearLog => [str "-c"]
  | logFile file => [str "-l", file]
  | port number _ => [str "-p", number]

/-- The number of a port is a numeral with a value in range. -/
def Valid : CommandItem → Prop
  | port number value => toNumber number = some value ∧ 0 ≤ value ∧ value ≤ 65535
  | _ => True

def set (c : CommandConfig) : CommandItem → CommandConfig
  | exportDir dir => { c with exportDir := some dir }
  | reverseLink => { c with exportReverseLink := true }
  | clearLog => { c with clearLog := true }
  | logFile file => { c with logFile := some file }
  | port _ value => { c with port := value }

end CommandItem

/-- The arguments are this sequence of items. -/
def IsSequence (args : List Bytes) (items : List CommandItem) : Prop :=
  args = items.flatMap CommandItem.args ∧ ∀ item ∈ items, item.Valid

/-- The options that the last item of each kind leaves. -/
def settled (c : CommandConfig) (items : List CommandItem) : CommandConfig :=
  { server := c.server
    exportDir := ((items.filterMap fun
      | .exportDir dir => some dir
      | _ => none).getLast?).or c.exportDir
    exportReverseLink := .reverseLink ∈ items || c.exportReverseLink
    clearLog := .clearLog ∈ items || c.clearLog
    logFile := ((items.filterMap fun
      | .logFile file => some file
      | _ => none).getLast?).or c.logFile
    port := ((items.filterMap fun
      | .port _ value => some value
      | _ => none).getLast?).getD c.port }

variable {args rest : List Bytes} {item item' : CommandItem} {items : List CommandItem}
  {s : CommandState}

theorem settled_nil (c : CommandConfig) : settled c [] = c := by
  simp [settled]

theorem settled_cons (c : CommandConfig) (item : CommandItem) (items : List CommandItem) :
    settled c (item :: items) = settled (item.set c) items := by
  have hlast : ∀ {α : Type} (a : α) (l : List α) (o : Option α),
      ((a :: l).getLast?).or o = l.getLast?.or (some a) := by
    intro α a l o
    rw [List.getLast?_cons]
    cases l.getLast? with
    | none => rfl
    | some b => rfl
  cases item with
  | exportDir dir => simp [settled, CommandItem.set, hlast]
  | reverseLink => simp [settled, CommandItem.set]
  | clearLog => simp [settled, CommandItem.set]
  | logFile file => simp [settled, CommandItem.set, hlast]
  | port number value =>
    simp [settled, CommandItem.set, List.getLast?_cons]

/-! ### The items at the front -/

/-- The item the arguments begin with. -/
def firstItem : List Bytes → Option (CommandItem × List Bytes)
  | [] => none
  | argument :: args =>
    if argument = str "-e" then args.head?.map fun dir => (.exportDir dir, args.tail)
    else if argument = str "-r" then some (.reverseLink, args)
    else if argument = str "-c" then some (.clearLog, args)
    else if argument = str "-l" then args.head?.map fun file => (.logFile file, args.tail)
    else if argument = str "-p" then
      args.head?.bind fun number =>
        ((toNumber number).filter fun value => 0 ≤ value ∧ value ≤ 65535).map fun value =>
          (.port number value, args.tail)
    else none

theorem firstItem_args (h : item.Valid) (rest : List Bytes) :
    firstItem (item.args ++ rest) = some (item, rest) := by
  cases item with
  | exportDir dir => rfl
  | reverseLink => rfl
  | clearLog => rfl
  | logFile file => rfl
  | port number value =>
    obtain ⟨hnumber, hrange⟩ := h
    have hfront : firstItem (CommandItem.args (.port number value) ++ rest) =
        ((toNumber number).filter fun value => 0 ≤ value ∧ value ≤ 65535).map fun value =>
          (.port number value, rest) := rfl
    rw [hfront, hnumber, Option.filter_some, if_pos (by simpa using hrange)]
    rfl

/-- The names of the options differ. -/
theorem options_ne : (str "-r" ≠ str "-e" ∧ str "-c" ≠ str "-e" ∧ str "-c" ≠ str "-r") ∧
    (str "-l" ≠ str "-e" ∧ str "-l" ≠ str "-r" ∧ str "-l" ≠ str "-c") ∧
    str "-p" ≠ str "-e" ∧ str "-p" ≠ str "-r" ∧ str "-p" ≠ str "-c" ∧ str "-p" ≠ str "-l" := by
  decide

theorem parseArguments_item (h : item.Valid) (rest : List Bytes) (s : CommandState) :
    parseArguments (item.args ++ rest) s =
      parseArguments rest { s with config := item.set s.config } := by
  obtain ⟨⟨hre, hce, hcr⟩, ⟨hle, hlr, hlc⟩, hpe, hpr, hpc, hpl⟩ := options_ne
  cases item with
  | exportDir dir => rfl
  | reverseLink =>
    rw [CommandItem.args, List.singleton_append, parseArguments.eq_def]
    simp only [hre, ↓reduceIte]
    rfl
  | clearLog =>
    rw [CommandItem.args, List.singleton_append, parseArguments.eq_def]
    simp only [hce, hcr, ↓reduceIte]
    rfl
  | logFile file => rfl
  | port number value =>
    obtain ⟨hnumber, hlow, hhigh⟩ := h
    have hrange : ¬ (value < 0 ∨ value > 65535) := by
      rw [not_or, not_lt, not_lt]
      exact ⟨hlow, hhigh⟩
    rw [CommandItem.args, List.cons_append, List.singleton_append, parseArguments.eq_def]
    simp only [hpe, hpr, hpc, hpl, ↓reduceIte, hnumber, hrange]
    rfl

/-- The arguments begin with a port that is no numeral. -/
def StartsBadPort (args : List Bytes) : Prop :=
  ∃ number rest, args = str "-p" :: number :: rest ∧ toNumber number = none

theorem not_startsBadPort {argument : Bytes} (h : argument ≠ str "-p" ∨ args = []) :
    ¬ StartsBadPort (argument :: args) := by
  rintro ⟨number, rest, hargs, _⟩
  obtain ⟨rfl, rfl⟩ := List.cons.inj hargs
  rcases h with h | h
  · exact h rfl
  · cases h

/-- Where no item begins, the usage is printed, or the port that is no numeral is compared. -/
theorem parseArguments_stuck (h : firstItem args = none) (hne : args ≠ []) :
    parseArguments args = printUsage ∧ ¬ StartsBadPort args ∨
      parseArguments args = Run.error .compareNil ∧ StartsBadPort args := by
  obtain ⟨⟨hre, hce, hcr⟩, ⟨hle, hlr, hlc⟩, hpe, hpr, hpc, hpl⟩ := options_ne
  obtain ⟨argument, args, rfl⟩ := List.exists_cons_of_ne_nil hne
  rw [firstItem] at h
  rw [parseArguments.eq_def]
  split_ifs at h with he hr hc hl hp
  · cases args with
    | nil =>
      refine .inl ⟨?_, not_startsBadPort (.inr rfl)⟩
      simp only [he, ↓reduceIte]
    | cons dir args => cases h
  · cases args with
    | nil =>
      refine .inl ⟨?_, not_startsBadPort (.inr rfl)⟩
      simp only [hl, hle, hlr, hlc, ↓reduceIte]
    | cons file args => cases h
  · cases args with
    | nil =>
      refine .inl ⟨?_, not_startsBadPort (.inr rfl)⟩
      simp only [hp, hpe, hpr, hpc, hpl, ↓reduceIte]
    | cons number args =>
      simp only [hp, hpe, hpr, hpc, hpl, ↓reduceIte]
      cases hnumber : toNumber number with
      | none => exact .inr ⟨rfl, number, args, rfl, hnumber⟩
      | some value =>
        -- the value is out of range
        simp only [List.head?_cons, Option.bind_some, hnumber, Option.map_eq_none_iff,
          Option.filter_some] at h
        refine .inl ⟨?_, ?_⟩
        · split at h
          · cases h
          · rename_i hrange
            have hout : value < 0 ∨ value > 65535 := by
              rw [decide_eq_true_eq, not_and_or, not_le, not_le] at hrange
              exact hrange
            simp only [hout, ↓reduceIte]
        · rintro ⟨number', rest, hargs, hnone⟩
          obtain ⟨_, htail⟩ := List.cons.inj hargs
          obtain ⟨rfl, _⟩ := List.cons.inj htail
          rw [hnumber] at hnone
          cases hnone
  · refine .inl ⟨?_, not_startsBadPort (.inl hp)⟩
    simp only [he, hr, hc, hl, hp, ↓reduceIte]

/-! ### Whole command lines -/

theorem parseArguments_items (h : ∀ item ∈ items, item.Valid) (rest : List Bytes)
    (s : CommandState) :
    parseArguments (items.flatMap CommandItem.args ++ rest) s =
      parseArguments rest { s with config := settled s.config items } := by
  induction items generalizing s with
  | nil => rw [settled_nil]; rfl
  | cons item items ih =>
    obtain ⟨hitem, hitems⟩ := List.forall_mem_cons.mp h
    rw [List.flatMap_cons, List.append_assoc, parseArguments_item hitem, ih hitems, settled_cons]

theorem firstItem_sound (h : firstItem args = some (item, rest)) :
    item.Valid ∧ args = item.args ++ rest := by
  cases args with
  | nil => cases h
  | cons argument args =>
    rw [firstItem] at h
    split_ifs at h with he hr hc hl hp
    · cases args with
      | nil => cases h
      | cons dir args =>
        obtain ⟨rfl, rfl⟩ := Prod.mk.inj (Option.some.inj h)
        exact ⟨trivial, by rw [he]; rfl⟩
    · obtain ⟨rfl, rfl⟩ := Prod.mk.inj (Option.some.inj h)
      exact ⟨trivial, by rw [hr]; rfl⟩
    · obtain ⟨rfl, rfl⟩ := Prod.mk.inj (Option.some.inj h)
      exact ⟨trivial, by rw [hc]; rfl⟩
    · cases args with
      | nil => cases h
      | cons file args =>
        obtain ⟨rfl, rfl⟩ := Prod.mk.inj (Option.some.inj h)
        exact ⟨trivial, by rw [hl]; rfl⟩
    · cases args with
      | nil => cases h
      | cons number args =>
        obtain ⟨value, hvalue, hfound⟩ := Option.map_eq_some_iff.mp h
        obtain ⟨rfl, rfl⟩ := Prod.mk.inj hfound
        obtain ⟨hnumber, hrange⟩ := Option.filter_eq_some_iff.mp hvalue
        exact ⟨⟨hnumber, by simpa using hrange⟩, by rw [hp]; rfl⟩

/-- The items at the front, as many as there are. -/
theorem exists_items (args : List Bytes) :
    ∃ (items : List CommandItem) (rest : List Bytes), (∀ item ∈ items, item.Valid) ∧
      args = items.flatMap CommandItem.args ++ rest ∧ firstItem rest = none := by
  induction hn : args.length using Nat.strong_induction_on generalizing args with
  | _ n ih =>
    cases hfirst : firstItem args with
    | none => exact ⟨[], args, by simp, rfl, hfirst⟩
    | some found =>
      obtain ⟨item, rest⟩ := found
      obtain ⟨hvalid, hargs⟩ := firstItem_sound hfirst
      have hshorter : rest.length < n := by
        rw [← hn, hargs, List.length_append]
        have hpos : 0 < item.args.length := by cases item <;> simp [CommandItem.args]
        omega
      obtain ⟨items, rest', hitems, hrest, hstuck⟩ := ih _ hshorter rest rfl
      refine ⟨item :: items, rest', List.forall_mem_cons.mpr ⟨hvalid, hitems⟩, ?_, hstuck⟩
      rw [hargs, hrest, List.flatMap_cons, List.append_assoc]

/-- After the items there is nothing, or the arguments are no sequence of items. -/
theorem isSequence_front (h : ∀ item ∈ items, item.Valid) (hrest : firstItem rest = none)
    {items' : List CommandItem}
    (hargs : IsSequence (items.flatMap CommandItem.args ++ rest) items') : rest = [] := by
  induction items generalizing items' with
  | nil =>
    obtain ⟨heq, hvalid⟩ := hargs
    rw [List.flatMap_nil, List.nil_append] at heq
    cases items' with
    | nil => exact heq
    | cons item items' =>
      have hitem := (List.forall_mem_cons.mp hvalid).1
      rw [heq, List.flatMap_cons, firstItem_args hitem] at hrest
      cases hrest
  | cons item items ih =>
    obtain ⟨hitem, hitems⟩ := List.forall_mem_cons.mp h
    obtain ⟨heq, hvalid⟩ := hargs
    have hfirst := firstItem_args hitem (items.flatMap CommandItem.args ++ rest)
    rw [List.flatMap_cons, List.append_assoc] at heq
    rw [heq] at hfirst
    cases items' with
    | nil => cases hfirst
    | cons item' items' =>
      obtain ⟨hitem', hitems'⟩ := List.forall_mem_cons.mp hvalid
      rw [List.flatMap_cons, firstItem_args hitem'] at hfirst
      have htail := (Prod.mk.inj (Option.some.inj hfirst)).2
      exact ih hitems ⟨htail.symm, hitems'⟩

/-- The arguments are accepted when they are a sequence of items, and otherwise the usage is printed
and they are rejected. -/
def MeetsGrammar (args : List Bytes) (s : CommandState) : Prop :=
  (∃ items, IsSequence args items ∧
    parseCommandLineArgs args s = (.ok true, { s with config := settled s.config items })) ∨
  (¬ ∃ items, IsSequence args items) ∧
    ∃ config, parseCommandLineArgs args s = (.ok false, ⟨config, s.printed ++ [usage]⟩)

/-- After a sequence of items there is a port that is no numeral. -/
def ReachesBadPort (args : List Bytes) : Prop :=
  ∃ (items : List CommandItem) (rest : List Bytes), (∀ item ∈ items, item.Valid) ∧
    args = items.flatMap CommandItem.args ++ rest ∧ StartsBadPort rest

theorem firstItem_badPort (h : StartsBadPort rest) : firstItem rest = none := by
  obtain ⟨number, rest, rfl, hnumber⟩ := h
  have hfront : firstItem (str "-p" :: number :: rest) =
      ((toNumber number).filter fun value => 0 ≤ value ∧ value ≤ 65535).map fun value =>
        (.port number value, rest) := rfl
  rw [hfront, hnumber]
  rfl

theorem parseArguments_badPort (hne : args ≠ []) (h : ReachesBadPort args) (s : CommandState) :
    (parseCommandLineArgs args s).1 = .error .compareNil := by
  obtain ⟨items, rest, hitems, hargs, hbad⟩ := h
  have hrest : rest ≠ [] := by
    obtain ⟨number, rest, rfl, _⟩ := hbad
    exact List.cons_ne_nil _ _
  rw [parseCommandLineArgs, if_neg hne, hargs, parseArguments_items hitems]
  rcases parseArguments_stuck (firstItem_badPort hbad) hrest with ⟨_, hnot⟩ | ⟨herror, _⟩
  · exact absurd hbad hnot
  · rw [herror]
    rfl

theorem not_meetsGrammar (hne : args ≠ []) (h : ReachesBadPort args) : ¬ MeetsGrammar args s := by
  have herror := parseArguments_badPort hne h s
  rintro (⟨items, _, hrun⟩ | ⟨_, config, hrun⟩)
  · rw [hrun] at herror
    cases herror
  · rw [hrun] at herror
    cases herror

theorem not_reachesBadPort (h : IsSequence args items) : ¬ ReachesBadPort args := by
  rintro ⟨items', rest, hitems, hargs, hbad⟩
  rw [hargs] at h
  have hnil := isSequence_front hitems (firstItem_badPort hbad) h
  obtain ⟨number, rest, hrest, _⟩ := hbad
  rw [hnil] at hrest
  cases hrest

end MoonWiki
