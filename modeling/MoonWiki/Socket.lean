import MoonWiki.Lua.Bytes

/-! `readFromSocket` and `writeToSocket` of `MoonWiki.c`. -/
namespace MoonWiki
open Lua

/-- A connection as `recv` sees it: the chunks still to arrive, after which it is closed or
broken. `alloc n` is the size `malloc((size_t) n)` grants for the Lua number `n`, if any. -/
structure Socket where
  chunks : List Bytes
  nonempty : ∀ c ∈ chunks, c ≠ []
  alloc : Rat → Option Nat

namespace Socket

/-- A closed connection. -/
def closed : Socket := ⟨[], by simp, fun n => some n.floor.toNat⟩

def stream (s : Socket) : Bytes := s.chunks.flatten

/-- A `recv` of at most `size` bytes takes them from the chunk that has arrived; the rest of
the chunk stays. Zero bytes mean a closed connection. -/
def recv (s : Socket) (size : Nat) : Option Bytes × Socket :=
  match hs : s.chunks with
  | [] => (none, s)
  | c :: cs =>
    if size = 0 then (none, s)
    else if hle : c.length ≤ size then
      (some c, { s with chunks := cs, nonempty := fun d hd => s.nonempty d (by simp [hs, hd]) })
    else
      (some (c.take size),
        { s with
          chunks := c.drop size :: cs
          nonempty := fun d hd => by
            rcases List.mem_cons.mp hd with rfl | hd
            · simp only [ne_eq, List.drop_eq_nil_iff]
              omega
            · exact s.nonempty d (by simp [hs, hd]) })

end Socket

/-- `none` is the pair of the empty string and the count -1. -/
def readFromSocket (n : Rat) (s : Socket) : Option Bytes × Socket :=
  match s.alloc n with
  | none => (none, s)
  | some size => s.recv size

/-- The outcome of one `send`. Of a request for `n` bytes `sent k` accepts `min (k + 1) n`,
so any count from 1 to `n`. -/
inductive SendOutcome
  | wouldBlock
  | error
  | sent (k : Nat)
  deriving DecidableEq, Repr

inductive WriteResult
  | olen (n : Nat)
  | socketError
  deriving DecidableEq, Repr

/-- The loop of `writeToSocket` with `dbuf` at the head of the first argument: its result and
the bytes `send` accepted. `none` means that the loop is still running. -/
def writeLoop (olen : Nat) : List SendOutcome → Bytes → Option (WriteResult × Bytes)
  | [], _ => none
  | o :: os, dbuf =>
    let dlen := dbuf.length
    match o with
    | .error => some (.socketError, [])
    | .wouldBlock => writeLoop olen os dbuf
    | .sent k =>
      if dlen < 65536 then
        let slen := min (k + 1) dlen
        if slen = dlen then some (.olen olen, dbuf)
        else
          (writeLoop olen os (dbuf.drop slen)).map fun (r, out) => (r, dbuf.take slen ++ out)
      else
        let slen := min (k + 1) 65536
        -- the pointer advances by the whole block, whatever `send` accepted
        (writeLoop olen os (dbuf.drop 65536)).map fun (r, out) => (r, dbuf.take slen ++ out)

def writeToSocket (dbuf : Bytes) (os : List SendOutcome) : Option (WriteResult × Bytes) :=
  writeLoop dbuf.length os dbuf

end MoonWiki
