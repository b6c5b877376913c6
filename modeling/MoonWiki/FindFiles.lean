import MoonWiki.Store

/-! `findFiles` of `MoonWiki.c`: the tables it returns, and the slots of the Lua stack it uses. -/
namespace MoonWiki
open Lua

/-- `LUA_MINSTACK`: the slots that a C function may use without a call of `lua_checkstack`. -/
def luaMinstack : Nat := 20

inductive StackValue
  | string (s : Bytes)
  | table (entries : List (Bytes × Bytes))
  deriving DecidableEq, Repr

/-- The stack of a C function from its bottom, and the number of slots in use at each call that
pushes a value. -/
structure CStack where
  slots : List StackValue
  used : List Nat
  deriving DecidableEq, Repr

namespace CStack

def push (v : StackValue) (c : CStack) : CStack :=
  ⟨c.slots ++ [v], c.used ++ [c.slots.length]⟩

def luaNewtable : CStack → CStack := push (.table [])

def luaPushstring (s : Bytes) : CStack → CStack := push (.string s)

/-- `lua_settable(L, -3)`: value and key are popped and set in the table below them. -/
def luaSettable (c : CStack) : Option CStack :=
  match c.slots.reverse with
  | .string value :: .string key :: .table entries :: rest =>
    some { c with slots := rest.reverse ++ [.table (entries ++ [(key, value)])] }
  | _ => none

end CStack

/-- The loop over the files that match. -/
def findFilesLoop : List FileEntry → CStack → Option CStack
  | [], c => some c
  | file :: files, c =>
    ((c.luaNewtable.luaPushstring file.date).luaPushstring file.name).luaSettable.bind
      (findFilesLoop files)

/-- The returned values, as many from the top of the stack as there are files, and the slots in use
at the calls that push. -/
def findFiles (path : Bytes) (files : List FileEntry) : Option (List StackValue × List Nat) :=
  (findFilesLoop files ⟨[.string path], []⟩).map fun c =>
    (c.slots.drop (c.slots.length - files.length), c.used)

/-! ### The slots in use -/

/-- The table of a file. -/
def fileTable (file : FileEntry) : StackValue := .table [(file.date, file.name)]

theorem settable_file (c : CStack) (file : FileEntry) :
    ((c.luaNewtable.luaPushstring file.date).luaPushstring file.name).luaSettable =
      some ⟨c.slots ++ [fileTable file],
        c.used ++ [c.slots.length, c.slots.length + 1, c.slots.length + 2]⟩ := by
  simp [CStack.luaSettable, CStack.luaPushstring, CStack.luaNewtable, CStack.push, fileTable]

/-- The slots in use at the pushes for so many files, with `n` slots in use before. -/
def slotsUsed (n : Nat) : Nat → List Nat
  | 0 => []
  | k + 1 => [n, n + 1, n + 2] ++ slotsUsed (n + 1) k

theorem findFilesLoop_run (files : List FileEntry) (c : CStack) :
    findFilesLoop files c = some ⟨c.slots ++ files.map fileTable,
      c.used ++ slotsUsed c.slots.length files.length⟩ := by
  induction files generalizing c with
  | nil => simp [findFilesLoop, slotsUsed]
  | cons file files ih =>
    rw [findFilesLoop, settable_file, Option.bind_some, ih]
    simp [slotsUsed]

theorem findFiles_run (path : Bytes) (files : List FileEntry) :
    findFiles path files = some (files.map fileTable, slotsUsed 1 files.length) := by
  rw [findFiles, findFilesLoop_run]
  simp

theorem slotsUsed_lt_iff (n k bound : Nat) :
    (∀ m ∈ slotsUsed n k, m < bound) ↔ k = 0 ∨ n + k + 1 < bound := by
  induction k generalizing n with
  | zero => simp [slotsUsed]
  | succ k ih =>
    have hrest := ih (n + 1)
    simp only [slotsUsed, List.forall_mem_append, hrest, List.forall_mem_cons,
      List.not_mem_nil, false_implies, implies_true, and_true]
    omega

/-- A new table is in use for every file, so the slots last for so many files only. -/
theorem findFiles_within_iff (path : Bytes) (files : List FileEntry) :
    (∃ results used, findFiles path files = some (results, used) ∧ ∀ n ∈ used, n < luaMinstack) ↔
      files.length ≤ 17 := by
  have hslots := slotsUsed_lt_iff 1 files.length luaMinstack
  rw [luaMinstack] at hslots
  constructor
  · rintro ⟨results, used, hrun, hused⟩
    rw [findFiles_run] at hrun
    obtain ⟨rfl, rfl⟩ := Prod.mk.inj (Option.some.inj hrun)
    have hbound := hslots.mp hused
    omega
  · intro h
    refine ⟨_, _, findFiles_run path files, hslots.mpr ?_⟩
    omega

/-- At the last of eighteen files the twenty slots are in use. -/
theorem findFiles_eighteen :
    ¬ ∃ results used, findFiles (str "htdocs/*.txt")
        (List.replicate 18 ⟨str "2005-03-01  10:00", str "FooBar.txt"⟩) = some (results, used) ∧
      ∀ n ∈ used, n < luaMinstack := by
  rintro ⟨results, used, hrun, hused⟩
  rw [findFiles_run] at hrun
  obtain ⟨rfl, rfl⟩ := Prod.mk.inj (Option.some.inj hrun)
  revert hused
  decide

end MoonWiki
