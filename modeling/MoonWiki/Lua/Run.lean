import MoonWiki.Lua.Bytes

/-! Computations with a state and Lua errors, and Lua tables with string keys. The state
survives an error, so what was done before it is still there. -/
namespace Lua

def Run (σ ε α : Type) : Type := σ → Except ε α × σ

namespace Run
variable {σ ε α β : Type}

instance : Monad (Run σ ε) where
  pure a := fun s => (.ok a, s)
  bind x f := fun s =>
    match x s with
    | (.ok a, s') => f a s'
    | (.error e, s') => (.error e, s')

def error (e : ε) : Run σ ε α := fun s => (.error e, s)
def get : Run σ ε σ := fun s => (.ok s, s)
def modify (f : σ → σ) : Run σ ε Unit := fun s => (.ok (), f s)

@[simp] theorem pure_apply (a : α) (s : σ) : (pure a : Run σ ε α) s = (.ok a, s) := rfl
@[simp] theorem error_apply (e : ε) (s : σ) : (error e : Run σ ε α) s = (.error e, s) := rfl
@[simp] theorem get_apply (s : σ) : (get : Run σ ε σ) s = (.ok s, s) := rfl
@[simp] theorem modify_apply (f : σ → σ) (s : σ) : (modify f : Run σ ε Unit) s = (.ok (), f s) :=
  rfl

theorem bind_apply (x : Run σ ε α) (f : α → Run σ ε β) (s : σ) :
    (x >>= f) s = match x s with
      | (.ok a, s') => f a s'
      | (.error e, s') => (.error e, s') := rfl

@[simp] theorem bind_ok {x : Run σ ε α} {f : α → Run σ ε β} {s s' : σ} {a : α}
    (h : x s = (.ok a, s')) : (x >>= f) s = f a s' := by
  rw [bind_apply, h]

@[simp] theorem bind_error {x : Run σ ε α} {f : α → Run σ ε β} {s s' : σ} {e : ε}
    (h : x s = (.error e, s')) : (x >>= f) s = (.error e, s') := by
  rw [bind_apply, h]

end Run

/-- A table with string keys; `none` is `nil`. -/
def Table : Type := Bytes → Option Bytes

namespace Table

def empty : Table := fun _ => none
def get (t : Table) (k : Bytes) : Option Bytes := t k
def set (t : Table) (k v : Bytes) : Table := fun k' => if k' = k then some v else t k'

@[simp] theorem get_empty (k : Bytes) : empty.get k = none := rfl
@[simp] theorem get_set_self (t : Table) (k v : Bytes) : (t.set k v).get k = some v := by
  simp [get, set]
theorem get_set_ne (t : Table) {k k' : Bytes} (v : Bytes) (h : k' ≠ k) :
    (t.set k v).get k' = t.get k' := by
  simp [get, set, h]

end Table
end Lua
