import MoonWiki.Htk

/-! The loops of `StringBuffer.lua` on the table they index, and what `StringBuffer` says of it. -/
namespace MoonWiki
open Lua

/-- The stack from its bottom, `stack[1]`, to its top. Its field `n` is the length. -/
structure BufferTable where
  stack : List Bytes
  deriving DecidableEq, Repr

/-- The errors of indexing past the end of the stack: a length, or a concatenation, of `nil`. -/
inductive BufferError
  | lengthNil
  | concatNil
  deriving DecidableEq, Repr

namespace BufferTable

def new : BufferTable := ⟨[]⟩

/-- `stack[i] = stack[i] .. table.remove(stack)` -/
def mergeTop (i : Nat) (stack : List Bytes) : Except BufferError (List Bytes) :=
  match stack[i]?, stack.getLast? with
  | some below, some top => .ok (stack.dropLast.set i (below ++ top))
  | _, _ => .error .concatNil

/-- The loop of `addString` from an index of the stack down to its bottom. -/
def addLoop : Nat → List Bytes → Except BufferError (List Bytes)
  | 0, stack => .ok stack
  | i + 1, stack =>
    match stack[i]?, stack[i + 1]? with
    | some below, some top =>
      if below.length > top.length then .ok stack
      else
        match mergeTop i stack with
        | .ok stack => addLoop i stack
        | .error e => .error e
    | _, _ => .error .lengthNil

/-- The loop of `toString`. -/
def joinLoop : Nat → List Bytes → Except BufferError (List Bytes)
  | 0, stack => .ok stack
  | i + 1, stack =>
    match mergeTop i stack with
    | .ok stack => joinLoop i stack
    | .error e => .error e

/-- The bound of the loop is taken once, after the string was inserted. -/
def addString (buffer : BufferTable) : Option Bytes → Except BufferError BufferTable
  | none => .ok buffer
  | some s =>
    let stack := buffer.stack ++ [s]
    (addLoop (stack.length - 1) stack).map BufferTable.mk

def toString (buffer : BufferTable) : Except BufferError (Option Bytes × BufferTable) :=
  (joinLoop (buffer.stack.length - 1) buffer.stack).map fun stack => (stack[0]?, ⟨stack⟩)

/-- A call of a method on the buffer. -/
inductive Call
  | addString (s : Option Bytes)
  | toString
  deriving DecidableEq, Repr

/-- One call: what `toString` returns, if it is the one, and the buffer after it. -/
def call (buffer : BufferTable) : Call → Except BufferError (List (Option Bytes) × BufferTable)
  | .addString s => (buffer.addString s).map fun buffer => ([], buffer)
  | .toString => buffer.toString.map fun (result, buffer) => ([result], buffer)

/-- A sequence of calls: the results of the calls of `toString`, and the buffer at the end. -/
def run (buffer : BufferTable) :
    List Call → Except BufferError (List (Option Bytes) × BufferTable)
  | [] => .ok ([], buffer)
  | c :: calls =>
    match buffer.call c with
    | .error e => .error e
    | .ok (results, buffer) =>
      (buffer.run calls).map fun (results', buffer) => (results ++ results', buffer)

/-! ### The stack -/

variable {stack base : List Bytes}

theorem mergeTop_concat (base : List Bytes) (below top : Bytes) :
    mergeTop base.length (base ++ [below] ++ [top]) = .ok (base ++ [below ++ top]) := by
  have hbelow : (base ++ [below] ++ [top])[base.length]? = some below := by simp
  have htop : (base ++ [below] ++ [top]).getLast? = some top := by simp
  rw [mergeTop, hbelow, htop]
  simp

/-- The lengths get smaller from the bottom to the top. -/
def Decreasing (stack : List Bytes) : Prop := stack.Pairwise fun s t => t.length < s.length

/-- The loop of `addString` merges as `StringBuffer` does. -/
theorem addLoop_merge (base : List Bytes) (top : Bytes) :
    addLoop base.length (base ++ [top]) = .ok (StringBuffer.merge top base.reverse).reverse := by
  induction base using List.reverseRecOn generalizing top with
  | nil => rfl
  | append_singleton base below ih =>
    have hindex : (base ++ [below] ++ [top])[base.length]? = some below := by simp
    have hindex' : (base ++ [below] ++ [top])[base.length + 1]? = some top := by simp
    rw [List.length_append, List.length_singleton, addLoop, hindex, hindex', List.reverse_append,
      List.reverse_singleton, List.singleton_append, StringBuffer.merge]
    dsimp only
    by_cases hlonger : below.length > top.length
    · rw [if_pos hlonger, if_pos hlonger]
      simp
    · rw [if_neg hlonger, if_neg hlonger, mergeTop_concat]
      exact ih (below ++ top)

theorem merge_ne_nil (top : Bytes) (below : List Bytes) : StringBuffer.merge top below ≠ [] := by
  induction below generalizing top with
  | nil => exact List.cons_ne_nil _ _
  | cons b rest ih =>
    rw [StringBuffer.merge]
    split_ifs
    · exact List.cons_ne_nil _ _
    · exact ih (b ++ top)

/-- A string merged into a stack of decreasing lengths leaves them decreasing. -/
theorem merge_decreasing (hbase : Decreasing base) (top : Bytes) :
    Decreasing (StringBuffer.merge top base.reverse).reverse := by
  induction base using List.reverseRecOn generalizing top with
  | nil => exact List.pairwise_singleton _ _
  | append_singleton base below ih =>
    have hsplit := List.pairwise_append.mp hbase
    rw [List.reverse_append, List.reverse_singleton, List.singleton_append, StringBuffer.merge]
    by_cases hlonger : below.length > top.length
    · rw [if_pos hlonger]
      simp only [List.reverse_cons, List.reverse_reverse]
      refine List.pairwise_append.mpr ⟨hbase, List.pairwise_singleton _ _, ?_⟩
      intro s hs t ht
      obtain rfl := List.mem_singleton.mp ht
      rcases List.mem_append.mp hs with hs | hs
      · have hbelow := hsplit.2.2 s hs below (List.mem_singleton.mpr rfl)
        omega
      · obtain rfl := List.mem_singleton.mp hs
        omega
    · rw [if_neg hlonger]
      exact ih hsplit.1 (below ++ top)

theorem joinLoop_concat (base : List Bytes) (top : Bytes) :
    joinLoop base.length (base ++ [top]) = .ok [base.flatten ++ top] := by
  induction base using List.reverseRecOn generalizing top with
  | nil => rfl
  | append_singleton base below ih =>
    rw [List.length_append, List.length_singleton, joinLoop, mergeTop_concat]
    dsimp only
    rw [ih]
    simp

theorem Decreasing.head {s : Bytes} (h : Decreasing (s :: stack)) : stack.length ≤ s.length := by
  induction stack generalizing s with
  | nil => exact Nat.zero_le _
  | cons t stack ih =>
    obtain ⟨hfirst, hrest⟩ := List.pairwise_cons.mp h
    have hlt := hfirst t (List.mem_cons_self ..)
    have hle := ih hrest
    rw [List.length_cons]
    omega

/-- Strings of decreasing lengths are as long together as the numbers below their number. -/
theorem Decreasing.sum (h : Decreasing stack) :
    stack.length * (stack.length - 1) ≤ 2 * stack.flatten.length := by
  induction stack with
  | nil => exact Nat.zero_le _
  | cons s stack ih =>
    have hhead := h.head
    have hrest := ih (List.pairwise_cons.mp h).2
    have hgauss : (stack.length + 1) * stack.length =
        stack.length * (stack.length - 1) + 2 * stack.length := by
      cases stack.length with
      | zero => rfl
      | succ n =>
        rw [Nat.add_sub_cancel]
        ring
    rw [List.length_cons, Nat.add_sub_cancel, hgauss, List.flatten_cons, List.length_append]
    omega

/-- The number of the strings is of the order of the root of their length. -/
theorem Decreasing.length_le (h : Decreasing stack) :
    stack.length ≤ Nat.sqrt (2 * stack.flatten.length) + 1 := by
  have hsquare : (stack.length - 1) * (stack.length - 1) ≤ 2 * stack.flatten.length := by
    refine Nat.le_trans ?_ h.sum
    exact Nat.mul_le_mul_right _ (Nat.sub_le _ _)
  have hroot := Nat.le_sqrt.mpr hsquare
  omega

/-! ### The buffer of the formatter -/

/-- The table of a buffer whose stack is kept from its top. -/
def ofBuffer (b : StringBuffer) : BufferTable := ⟨b.stack.reverse⟩

/-- The loop of `addString` does not fail and does what the formatter's buffer does. -/
theorem addString_ofBuffer (b : StringBuffer) (s : Option Bytes) :
    (ofBuffer b).addString s = .ok (ofBuffer (b.addString s)) := by
  cases s with
  | none => rfl
  | some s =>
    have hmerge := addLoop_merge b.stack.reverse s
    rw [List.reverse_reverse] at hmerge
    simp only [BufferTable.addString, ofBuffer, List.length_append, List.length_singleton,
      Nat.add_sub_cancel, hmerge]
    rfl

theorem toString_ofBuffer (b : StringBuffer) :
    (ofBuffer b).toString = .ok (b.toString.1, ofBuffer b.toString.2) := by
  obtain ⟨stack⟩ := b
  cases stack with
  | nil => rfl
  | cons top rest =>
    have hjoin := joinLoop_concat rest.reverse top
    have hfold : rest.foldl (fun acc below => below ++ acc) top = rest.reverse.flatten ++ top := by
      clear hjoin
      induction rest generalizing top with
      | nil => rfl
      | cons below rest ih => simp [ih]
    simp only [BufferTable.toString, StringBuffer.toString, ofBuffer, List.reverse_cons,
      List.length_append, List.length_singleton, Nat.add_sub_cancel, hjoin, hfold]
    rfl

/-! ### Sequences of calls -/

/-- The strings that the calls add, without `nil`. -/
def added (calls : List Call) : List Bytes :=
  calls.filterMap fun
    | .addString s => s
    | .toString => none

/-- The strings in their order, joined; `nil` when there are none. -/
def joined (strings : List Bytes) : Option Bytes :=
  if strings = [] then none else some strings.flatten

/-- What the calls of `toString` are to return after these strings. -/
def expected (strings : List Bytes) : List Call → List (Option Bytes)
  | [] => []
  | .addString s :: calls => expected (strings ++ s.toList) calls
  | .toString :: calls => joined strings :: expected strings calls

/-- The buffer holds these strings. -/
structure Holds (buffer : BufferTable) (strings : List Bytes) : Prop where
  decreasing : Decreasing buffer.stack
  content : buffer.stack.flatten = strings.flatten
  nil_iff : buffer.stack = [] ↔ strings = []

theorem holds_new : new.Holds [] := ⟨List.Pairwise.nil, rfl, Iff.rfl⟩

variable {buffer : BufferTable} {strings : List Bytes}

theorem Holds.addString (h : buffer.Holds strings) (s : Option Bytes) :
    ∃ buffer', buffer.addString s = .ok buffer' ∧ buffer'.Holds (strings ++ s.toList) := by
  cases s with
  | none => exact ⟨buffer, rfl, by simpa using h⟩
  | some s =>
    refine ⟨⟨(StringBuffer.merge s buffer.stack.reverse).reverse⟩, ?_, ?_, ?_, ?_⟩
    · simp only [BufferTable.addString, List.length_append, List.length_singleton,
        Nat.add_sub_cancel, addLoop_merge]
      rfl
    · exact merge_decreasing h.decreasing s
    · rw [StringBuffer.merge_flatten, List.reverse_reverse, h.content]
      simp
    · simp [merge_ne_nil]

theorem Holds.toString (h : buffer.Holds strings) :
    ∃ buffer', buffer.toString = .ok (joined strings, buffer') ∧ buffer'.Holds strings := by
  obtain ⟨stack⟩ := buffer
  rcases List.eq_nil_or_concat stack with rfl | ⟨base, top, hconcat⟩
  · refine ⟨⟨[]⟩, ?_, h⟩
    rw [joined, if_pos (h.nil_iff.mp rfl)]
    rfl
  · rw [List.concat_eq_append] at hconcat
    subst hconcat
    have hne : strings ≠ [] := fun hnil => by simpa using h.nil_iff.mpr hnil
    have hcontent : base.flatten ++ top = strings.flatten := by simpa using h.content
    refine ⟨⟨[strings.flatten]⟩, ?_, ?_⟩
    · rw [BufferTable.toString, joined, if_neg hne, List.length_append, List.length_singleton,
        Nat.add_sub_cancel, joinLoop_concat, hcontent]
      rfl
    · refine ⟨List.pairwise_singleton _ _, ?_, ?_⟩
      · simp
      · simp [hne]

@[simp] theorem added_addString (s : Option Bytes) : added [.addString s] = s.toList := by
  cases s with
  | none => rfl
  | some s => rfl

@[simp] theorem added_toString : added [.toString] = [] := rfl

theorem Holds.call (h : buffer.Holds strings) (c : Call) :
    ∃ buffer', buffer.call c = .ok (expected strings [c], buffer') ∧
      buffer'.Holds (strings ++ added [c]) := by
  cases c with
  | addString s =>
    obtain ⟨buffer', hrun, hholds⟩ := h.addString s
    refine ⟨buffer', ?_, by rwa [added_addString]⟩
    rw [BufferTable.call, hrun]
    rfl
  | toString =>
    obtain ⟨buffer', hrun, hholds⟩ := h.toString
    refine ⟨buffer', ?_, by rwa [added_toString, List.append_nil]⟩
    rw [BufferTable.call, hrun]
    rfl

theorem expected_cons (strings : List Bytes) (c : Call) (calls : List Call) :
    expected strings (c :: calls) =
      expected strings [c] ++ expected (strings ++ added [c]) calls := by
  cases c with
  | addString s =>
    rw [added_addString]
    rfl
  | toString =>
    rw [added_toString, List.append_nil]
    rfl

theorem added_cons (c : Call) (calls : List Call) :
    added (c :: calls) = added [c] ++ added calls := by
  rw [added, added, added, ← List.filterMap_append]
  rfl

theorem Holds.run (h : buffer.Holds strings) (calls : List Call) :
    ∃ buffer', buffer.run calls = .ok (expected strings calls, buffer') ∧
      buffer'.Holds (strings ++ added calls) := by
  induction calls generalizing buffer strings with
  | nil => exact ⟨buffer, rfl, by simpa [added] using h⟩
  | cons c calls ih =>
    obtain ⟨buffer₁, hcall, h₁⟩ := h.call c
    obtain ⟨buffer₂, hrest, h₂⟩ := ih h₁
    refine ⟨buffer₂, ?_, ?_⟩
    · rw [BufferTable.run, hcall, expected_cons strings c calls]
      simp only [hrest]
      rfl
    · rwa [added_cons, ← List.append_assoc]

/-- Whatever the calls so far are, every `toString` returned the strings added before it, and the
stack has few strings of decreasing lengths. -/
theorem run_new (calls : List Call) :
    ∃ buffer, new.run calls = .ok (expected [] calls, buffer) ∧ Decreasing buffer.stack ∧
      buffer.stack.length ≤ Nat.sqrt (2 * (added calls).flatten.length) + 1 := by
  obtain ⟨buffer, hrun, hholds⟩ := holds_new.run calls
  rw [List.nil_append] at hholds
  refine ⟨buffer, hrun, hholds.decreasing, ?_⟩
  rw [← hholds.content]
  exact hholds.decreasing.length_le

example : (new.run [.toString, .addString (some [1]), .addString none, .addString (some []),
    .addString (some [2, 3]), .toString]).map Prod.fst = .ok [none, some [1, 2, 3]] := by
  decide

end BufferTable
end MoonWiki
