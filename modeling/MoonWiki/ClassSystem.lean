import MoonWiki.Lua.Run

/-! `Object.lua`: classes, objects, and the look-up of methods along the chain of classes. -/
namespace MoonWiki
open Lua

variable {V : Type}

/-! ### Tables -/

/-- What a field or a method slot holds: a class, by its number, or any other value. -/
inductive ObjectValue (V : Type)
  | ofClass (c : Nat)
  | other (v : V)

/-- The constructors that a class can hold in its field `new`. -/
inductive Constructor
  | objectNew
  deriving DecidableEq, Repr

structure ClassTable (V : Type) where
  name : Bytes
  super : Option Nat
  new : Constructor
  methods : Bytes → Option (ObjectValue V)

/-- A table of fields for a new object, each key once. -/
structure FieldTable (V : Type) where
  entries : List (Bytes × ObjectValue V)
  nodup : (entries.map Prod.fst).Nodup

/-- An argument of a constructor. -/
inductive NewArgument (V : Type)
  | table (fields : FieldTable V)
  | other (v : V)

/-- The classes and the objects that were made; the number of a class or an object is its place. -/
structure World (V : Type) where
  classes : List (ClassTable V)
  objects : List (Bytes → Option (ObjectValue V))

/-- The class `Object` alone, with the methods it starts with. -/
def World.initial (methods : Bytes → Option (ObjectValue V)) : World V :=
  ⟨[⟨str "Object", none, .objectNew, methods⟩], []⟩

def setField (raw : Bytes → Option (ObjectValue V)) (key : Bytes) (v : Option (ObjectValue V)) :
    Bytes → Option (ObjectValue V) :=
  fun k => if k = key then v else raw k

/-! ### Classes and objects -/

/-- The loop over the pairs of a table. -/
def copyFields (raw : Bytes → Option (ObjectValue V)) (fields : FieldTable V) :
    Bytes → Option (ObjectValue V) :=
  fields.entries.foldl (fun raw (key, value) => setField raw key (some value)) raw

/-- An argument that is no table is passed over. -/
def copyArgument (raw : Bytes → Option (ObjectValue V)) :
    NewArgument V → Bytes → Option (ObjectValue V)
  | .table fields => copyFields raw fields
  | .other _ => raw

/-- `Object.new`: the fields of the tables are copied over the reference to the class. -/
def objectNew (c : Nat) (args : List (NewArgument V)) : Bytes → Option (ObjectValue V) :=
  args.foldl copyArgument (setField (fun _ => none) (str "class") (some (.ofClass c)))

inductive ClassOp (V : Type)
  | subclass (name : Bytes) (super : Nat)
  | setMethod (c : Nat) (key : Bytes) (v : Option (ObjectValue V))
  | new (c : Nat) (args : List (NewArgument V))

/-- One statement; a class that does not exist is `nil`, which is an error. -/
def World.step (w : World V) : ClassOp V → Option (World V)
  | .subclass name super =>
    w.classes[super]?.map fun t =>
      { w with classes := w.classes ++ [⟨name, some super, t.new, fun _ => none⟩] }
  | .setMethod c key v =>
    w.classes[c]?.map fun t =>
      { w with classes := w.classes.set c { t with methods := setField t.methods key v } }
  | .new c args =>
    w.classes[c]?.map fun t =>
      match t.new with
      | .objectNew => { w with objects := w.objects ++ [objectNew c args] }

def World.run (w : World V) (ops : List (ClassOp V)) : Option (World V) :=
  ops.foldlM World.step w

/-- The metatables of `methods`: the methods of the class, or those of the class above. `none` means
that the chain of classes did not end within the fuel. -/
def World.methodsIndex (w : World V) : Nat → Nat → Bytes → Option (Option (ObjectValue V))
  | 0, _, _ => none
  | fuel + 1, c, key =>
    w.classes[c]?.bind fun t =>
      match t.methods key with
      | some v => some (some v)
      | none =>
        match t.super with
        | none => some none
        | some super => w.methodsIndex fuel super key

/-- `obj[key]` -/
def World.index (w : World V) (fuel o : Nat) (key : Bytes) : Option (Option (ObjectValue V)) :=
  w.objects[o]?.bind fun raw =>
    match raw key with
    | some v => some (some v)
    | none =>
      match raw (str "class") with
      | some (.ofClass c) => w.methodsIndex fuel c key
      | _ => none

/-- The loop of `instanceof`, from the current class on. -/
def World.instanceofLoop (w : World V) (c : ObjectValue V) : Nat → Option Nat → Option Bool
  | 0, _ => none
  | _ + 1, none => some false
  | fuel + 1, some current =>
    match c with
    | .ofClass d =>
      if current = d then some true
      else w.instanceofLoop c fuel (w.classes[current]?.bind ClassTable.super)
    | .other _ => w.instanceofLoop c fuel (w.classes[current]?.bind ClassTable.super)

def World.instanceof (w : World V) (fuel o : Nat) (c : ObjectValue V) : Option Bool :=
  w.objects[o]?.bind fun raw =>
    match raw (str "class") with
    | some (.ofClass current) => w.instanceofLoop c fuel (some current)
    | _ => none

/-! ### The chain of classes -/

/-- The classes from one up to `Object`. -/
inductive World.Path (w : World V) : Nat → List Nat → Prop
  | object {t : ClassTable V} : w.classes[0]? = some t → t.super = none → w.Path 0 [0]
  | super {c s : Nat} {t : ClassTable V} {path : List Nat} :
      w.classes[c]? = some t → t.super = some s → w.Path s path → w.Path c (c :: path)

/-- The method that a class has itself. -/
def World.ownMethod (w : World V) (key : Bytes) (c : Nat) : Option (ObjectValue V) :=
  w.classes[c]?.bind fun t => t.methods key

variable {w w' : World V} {c o : Nat} {path : List Nat} {key : Bytes}

/-- The nearest class that has the method counts. -/
theorem World.Path.methodsIndex (h : w.Path c path) {n : Nat} (hn : path.length ≤ n) :
    w.methodsIndex n c key = some (path.findSome? (w.ownMethod key)) := by
  induction h generalizing n with
  | @object t ht hsuper =>
    obtain ⟨n, rfl⟩ := Nat.exists_eq_add_of_le' hn
    rw [List.length_singleton, World.methodsIndex, ht, Option.bind_some, hsuper]
    simp only [List.findSome?_cons, List.findSome?_nil, World.ownMethod, ht, Option.bind_some]
    cases t.methods key with
    | none => rfl
    | some v => rfl
  | @super c s t path ht hsuper hpath ih =>
    obtain ⟨n, rfl⟩ := Nat.exists_eq_add_of_le' hn
    have hrest := ih (n := n + path.length) (by omega)
    rw [List.length_cons, ← Nat.add_assoc, World.methodsIndex, ht, Option.bind_some, hsuper]
    simp only [List.findSome?_cons, World.ownMethod, ht, Option.bind_some, hrest]
    cases t.methods key with
    | none => rfl
    | some v => rfl

theorem instanceofLoop_hit (w : World V) (n c : Nat) :
    w.instanceofLoop (.ofClass c) (n + 1) (some c) = some true := by
  simp [World.instanceofLoop]

theorem instanceofLoop_miss {d : ObjectValue V} (h : d ≠ .ofClass c) (n : Nat) :
    w.instanceofLoop d (n + 1) (some c) =
      w.instanceofLoop d n (w.classes[c]?.bind ClassTable.super) := by
  cases d with
  | other v => rfl
  | ofClass d =>
    have hne : c ≠ d := fun hcd => h (hcd ▸ rfl)
    simp only [World.instanceofLoop, hne, ↓reduceIte]

/-- The loop ends, and has found the class when it is one of the chain. -/
theorem World.Path.instanceofLoop (h : w.Path c path) (d : ObjectValue V) {n : Nat}
    (hn : path.length < n) :
    ∃ b, w.instanceofLoop d n (some c) = some b ∧ (b = true ↔ ∃ e ∈ path, d = .ofClass e) := by
  induction h generalizing n with
  | @object t ht hsuper =>
    obtain ⟨n, rfl⟩ : ∃ m, n = m + 1 + 1 := Nat.exists_eq_add_of_lt hn |>.imp fun m hm => by
      rw [hm, List.length_singleton]
      omega
    by_cases hd : d = .ofClass 0
    · subst hd
      exact ⟨true, instanceofLoop_hit w _ 0, by simp⟩
    · refine ⟨false, ?_, by simp [hd]⟩
      rw [instanceofLoop_miss hd, ht, Option.bind_some, hsuper]
      rfl
  | @super c s t path ht hsuper hpath ih =>
    obtain ⟨n, rfl⟩ : ∃ m, n = m + 1 := Nat.exists_eq_succ_of_ne_zero (by omega)
    by_cases hd : d = .ofClass c
    · subst hd
      exact ⟨true, instanceofLoop_hit w _ c, by simp⟩
    · obtain ⟨b, hrest, hb⟩ := ih (n := n) (by simpa using hn)
      refine ⟨b, ?_, ?_⟩
      · rw [instanceofLoop_miss hd, ht, Option.bind_some, hsuper, hrest]
      · rw [hb, List.exists_mem_cons_iff, or_iff_right hd]

/-! ### Worlds that programs make -/

/-- `Object` alone has no class above it, and a class was made after the one above it. -/
structure World.Rooted (w : World V) : Prop where
  root : ∃ t, w.classes[0]? = some t ∧ t.super = none
  above : ∀ c t, w.classes[c]? = some t → c ≠ 0 → ∃ s, t.super = some s ∧ s < c

theorem rooted_initial (methods : Bytes → Option (ObjectValue V)) :
    (World.initial methods).Rooted := by
  refine ⟨⟨_, rfl, rfl⟩, ?_⟩
  intro c t ht hc
  have hlt := (List.getElem?_eq_some_iff.mp ht).1
  simp [World.initial] at hlt
  omega

theorem World.Rooted.exists_path (h : w.Rooted) (hc : c < w.classes.length) :
    ∃ path, w.Path c path := by
  induction c using Nat.strong_induction_on with
  | _ c ih =>
    by_cases hzero : c = 0
    · subst hzero
      obtain ⟨t, ht, hsuper⟩ := h.root
      exact ⟨[0], .object ht hsuper⟩
    · have ht := List.getElem?_eq_getElem hc
      obtain ⟨s, hsuper, hlt⟩ := h.above c _ ht hzero
      obtain ⟨path, hpath⟩ := ih s hlt (by omega)
      exact ⟨c :: path, .super ht hsuper hpath⟩

theorem World.Path.getLast? (h : w.Path c path) : path.getLast? = some 0 := by
  induction h with
  | object => rfl
  | @super c s t path _ _ hpath ih =>
    rw [List.getLast?_cons, ih]
    rfl

/-- What was made is still there; only methods may be others. -/
structure World.Grows (w w' : World V) : Prop where
  classes : w.classes.length ≤ w'.classes.length
  objects : w.objects <+: w'.objects

theorem rooted_subclass (h : w.Rooted) {super : Nat} {t : ClassTable V}
    (hsuper : t.super = some super) (hlt : super < w.classes.length) (objects) :
    World.Rooted ⟨w.classes ++ [t], objects⟩ := by
  obtain ⟨r, hr, hnone⟩ := h.root
  have hroot := (List.getElem?_eq_some_iff.mp hr).1
  refine ⟨⟨r, ?_, hnone⟩, ?_⟩
  · rw [List.getElem?_append_left hroot]
    exact hr
  · intro c u hu hc
    have hbound := (List.getElem?_eq_some_iff.mp hu).1
    rw [List.length_append, List.length_singleton] at hbound
    by_cases hold : c < w.classes.length
    · rw [List.getElem?_append_left hold] at hu
      exact h.above c u hu hc
    · obtain rfl : c = w.classes.length := by omega
      rw [List.getElem?_concat_length] at hu
      obtain rfl := Option.some.inj hu
      exact ⟨super, hsuper, hlt⟩

theorem rooted_setMethod (h : w.Rooted) {t u : ClassTable V} (ht : w.classes[c]? = some t)
    (hu : u.super = t.super) (objects) : World.Rooted ⟨w.classes.set c u, objects⟩ := by
  have hlt := (List.getElem?_eq_some_iff.mp ht).1
  refine ⟨?_, ?_⟩
  · obtain ⟨r, hr, hnone⟩ := h.root
    by_cases hc : c = 0
    · subst hc
      obtain rfl := Option.some.inj (ht.symm.trans hr)
      exact ⟨u, List.getElem?_set_self hlt, hu.trans hnone⟩
    · exact ⟨r, (List.getElem?_set_ne hc).trans hr, hnone⟩
  · intro d v hv hd
    by_cases hc : c = d
    · subst hc
      rw [List.getElem?_set_self hlt] at hv
      obtain rfl := Option.some.inj hv
      obtain ⟨s, hs, hless⟩ := h.above c t ht hd
      exact ⟨s, hu.trans hs, hless⟩
    · rw [List.getElem?_set_ne hc] at hv
      exact h.above d v hv hd

/-- One statement keeps the chain of classes as it is. -/
theorem World.Rooted.step {op : ClassOp V} (h : w.Rooted) (hstep : w.step op = some w') :
    w'.Rooted ∧ w.Grows w' := by
  cases op with
  | subclass name super =>
    obtain ⟨t, ht, rfl⟩ := Option.map_eq_some_iff.mp hstep
    have hlt := (List.getElem?_eq_some_iff.mp ht).1
    refine ⟨rooted_subclass h rfl hlt _, ?_, List.prefix_rfl⟩
    rw [List.length_append]
    omega
  | setMethod c key v =>
    obtain ⟨t, ht, rfl⟩ := Option.map_eq_some_iff.mp hstep
    refine ⟨rooted_setMethod (u := { t with methods := setField t.methods key v }) h ht rfl _, ?_,
      List.prefix_rfl⟩
    rw [List.length_set]
  | new c args =>
    obtain ⟨t, ht, hw⟩ := Option.map_eq_some_iff.mp hstep
    cases t.new with
    | objectNew =>
      subst hw
      exact ⟨⟨h.root, h.above⟩, Nat.le_refl _, List.prefix_append _ _⟩

theorem World.Rooted.run {ops : List (ClassOp V)} (h : w.Rooted) (hrun : w.run ops = some w') :
    w'.Rooted ∧ w.Grows w' := by
  induction ops generalizing w with
  | nil =>
    obtain rfl := Option.some.inj hrun
    exact ⟨h, Nat.le_refl _, List.prefix_rfl⟩
  | cons op ops ih =>
    obtain ⟨w₁, hstep, hrest⟩ := Option.bind_eq_some_iff.mp hrun
    obtain ⟨h₁, hgrows₁⟩ := h.step hstep
    obtain ⟨h₂, hgrows₂⟩ := ih h₁ hrest
    exact ⟨h₂, Nat.le_trans hgrows₁.classes hgrows₂.classes,
      hgrows₁.objects.trans hgrows₂.objects⟩

theorem run_append (w : World V) (before after : List (ClassOp V)) :
    w.run (before ++ after) = (w.run before).bind fun w => w.run after := by
  rw [World.run, List.foldlM_append]
  rfl

/-! ### Fields of a new object -/

/-- The last given field of that name. -/
def lastField (tables : List (FieldTable V)) (key : Bytes) : Option (ObjectValue V) :=
  tables.reverse.findSome? fun t => t.entries.lookup key

theorem foldl_setField {entries : List (Bytes × ObjectValue V)}
    (h : (entries.map Prod.fst).Nodup) (raw : Bytes → Option (ObjectValue V)) (key : Bytes) :
    entries.foldl (fun raw (key, value) => setField raw key (some value)) raw key =
      (entries.lookup key).or (raw key) := by
  induction entries generalizing raw with
  | nil => rfl
  | cons e entries ih =>
    obtain ⟨k, v⟩ := e
    obtain ⟨hk, hrest⟩ := List.nodup_cons.mp h
    rw [List.foldl_cons, ih hrest, List.lookup_cons]
    by_cases hkey : key = k
    · subst hkey
      have hnone : entries.lookup key = none := by
        rw [List.lookup_eq_none_iff]
        intro e he
        rw [bne_iff_ne]
        rintro rfl
        exact hk (List.mem_map.mpr ⟨e, he, rfl⟩)
      simp [hnone, setField]
    · have hbeq : (key == k) = false := beq_eq_false_iff_ne.mpr hkey
      simp only [hbeq, setField, hkey, ↓reduceIte]

theorem copyFields_apply (raw : Bytes → Option (ObjectValue V)) (fields : FieldTable V)
    (key : Bytes) : copyFields raw fields key = (fields.entries.lookup key).or (raw key) :=
  foldl_setField fields.nodup raw key

theorem objectNew_apply (c : Nat) (tables : List (FieldTable V)) (key : Bytes) :
    objectNew c (tables.map .table) key = (lastField tables key).or
      (setField (fun _ => none) (str "class") (some (.ofClass c)) key) := by
  induction tables using List.reverseRecOn with
  | nil => rfl
  | append_singleton tables fields ih =>
    rw [objectNew] at ih
    rw [objectNew, List.map_append, List.foldl_append, List.map_singleton, List.foldl_cons,
      List.foldl_nil, copyArgument, copyFields_apply, ih, lastField, lastField,
      List.reverse_append, List.reverse_singleton, List.singleton_append, List.findSome?_cons]
    cases fields.entries.lookup key with
    | none => rfl
    | some v => rfl

/-- No table of fields has the key of the class. -/
def NoClassField (tables : List (FieldTable V)) : Prop :=
  ∀ fields ∈ tables, str "class" ∉ fields.entries.map Prod.fst

theorem lastField_class {tables : List (FieldTable V)} (h : NoClassField tables) :
    lastField tables (str "class") = none := by
  rw [lastField, List.findSome?_eq_none_iff]
  intro fields hfields
  rw [List.lookup_eq_none_iff]
  intro e he
  rw [bne_iff_ne]
  intro hkey
  refine h fields (List.mem_reverse.mp hfields) (List.mem_map.mpr ⟨e, he, hkey.symm⟩)

/-! ### Look-up in an object -/

/-- The object was made by the constructor of a class, with these tables. -/
theorem index_new {tables : List (FieldTable V)} (ho : w.objects[o]? =
      some (objectNew c (tables.map .table))) (htables : NoClassField tables)
    (hpath : w.Path c path) (hkey : key ≠ str "class") {n : Nat} (hn : path.length ≤ n) :
    w.index n o key =
      some ((lastField tables key).or (path.findSome? (w.ownMethod key))) := by
  have hclass : objectNew c (tables.map .table) (str "class") = some (.ofClass c) := by
    rw [objectNew_apply, lastField_class htables]
    simp [setField]
  have hfield : objectNew c (tables.map .table) key = lastField tables key := by
    rw [objectNew_apply]
    simp [setField, hkey]
  rw [World.index, ho, Option.bind_some, hfield, hclass]
  cases lastField tables key with
  | none => exact hpath.methodsIndex hn
  | some v => rfl

theorem instanceof_new {tables : List (FieldTable V)} (ho : w.objects[o]? =
      some (objectNew c (tables.map .table))) (htables : NoClassField tables)
    (hpath : w.Path c path) (d : ObjectValue V) {n : Nat} (hn : path.length < n) :
    ∃ b, w.instanceof n o d = some b ∧ (b = true ↔ ∃ e ∈ path, d = .ofClass e) := by
  have hclass : objectNew c (tables.map .table) (str "class") = some (.ofClass c) := by
    rw [objectNew_apply, lastField_class htables]
    simp [setField]
  rw [World.instanceof, ho, Option.bind_some, hclass]
  exact hpath.instanceofLoop d hn

end MoonWiki
