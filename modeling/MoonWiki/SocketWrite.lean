import MoonWiki.Socket

/-! Partial sends: when `writeToSocket` delivers the buffer. -/
namespace MoonWiki
open Lua

variable {olen n : Nat} {os : List SendOutcome} {dbuf out : Bytes} {r : WriteResult}

/-- Whether the outcomes bring the loop to an end when `n` bytes are left. -/
def returns : List SendOutcome → Nat → Bool
  | [], _ => false
  | .error :: _, _ => true
  | .wouldBlock :: os, n => returns os n
  | .sent k :: os, n =>
    if n < 65536 then min (k + 1) n = n || returns os (n - min (k + 1) n)
    else returns os (n - 65536)

/-- Nothing is accepted any more. -/
def quiet : List SendOutcome → Bool
  | [] => true
  | .error :: _ => true
  | .wouldBlock :: os => quiet os
  | .sent _ :: _ => false

/-- With `n` bytes left, every block of 65536 bytes is accepted whole, or nothing is accepted
after the first one that is not. -/
def blocksWhole : List SendOutcome → Nat → Bool
  | [], _ => true
  | .error :: _, _ => true
  | .wouldBlock :: os, n => blocksWhole os n
  | .sent k :: os, n =>
    if n < 65536 then min (k + 1) n = n || blocksWhole os (n - min (k + 1) n)
    else if 65536 ≤ k + 1 then blocksWhole os (n - 65536)
    else quiet os

/-- Of a call that returned: after a success the accepted bytes are the buffer, after an error
a prefix of it. -/
def Delivered (dbuf : Bytes) (r : WriteResult) (out : Bytes) : Prop :=
  match r with
  | .olen _ => out = dbuf
  | .socketError => out <+: dbuf

theorem delivered_append {u : Bytes} (h : Delivered dbuf r out) :
    Delivered (u ++ dbuf) r (u ++ out) := by
  cases r with
  | olen n => exact congrArg (u ++ ·) h
  | socketError => exact (List.prefix_append_right_inj u).mpr h

theorem delivered_append_iff {u : Bytes} :
    Delivered (u ++ dbuf) r (u ++ out) ↔ Delivered dbuf r out := by
  cases r <;> simp [Delivered, List.prefix_append_right_inj]

/-- One accepted `send` of fewer than 65536 bytes. -/
theorem writeLoop_part {k : Nat} (h : dbuf.length < 65536) :
    writeLoop olen (.sent k :: os) dbuf =
      if min (k + 1) dbuf.length = dbuf.length then some (.olen olen, dbuf)
      else (writeLoop olen os (dbuf.drop (min (k + 1) dbuf.length))).map
        fun (r, out) => (r, dbuf.take (min (k + 1) dbuf.length) ++ out) := by
  simp only [writeLoop, if_pos h]

/-- One accepted `send` of a block. -/
theorem writeLoop_block {k : Nat} (h : ¬ dbuf.length < 65536) :
    writeLoop olen (.sent k :: os) dbuf =
      (writeLoop olen os (dbuf.drop 65536)).map
        fun (r, out) => (r, dbuf.take (min (k + 1) 65536) ++ out) := by
  simp only [writeLoop, if_neg h]

theorem writeLoop_isSome : (writeLoop olen os dbuf).isSome = returns os dbuf.length := by
  induction os generalizing dbuf with
  | nil => rfl
  | cons o os ih =>
    cases o with
    | error => rfl
    | wouldBlock => exact ih
    | sent k =>
      rw [returns]
      by_cases hlt : dbuf.length < 65536
      · rw [writeLoop_part hlt, if_pos hlt]
        by_cases hall : min (k + 1) dbuf.length = dbuf.length
        · simp [hall]
        · simp [hall, ih]
      · rw [writeLoop_block hlt, if_neg hlt]
        simp [ih]

/-- What a call accepts when it never gets past its first bytes. -/
theorem writeLoop_quiet (hq : quiet os) (h : writeLoop olen os dbuf = some (r, out)) :
    r = .socketError ∧ out = [] := by
  induction os with
  | nil => simp [writeLoop] at h
  | cons o os ih =>
    cases o with
    | error => simpa [writeLoop, eq_comm] using h
    | wouldBlock => exact ih hq h
    | sent k => simp [quiet] at hq

theorem writeLoop_delivered (hb : blocksWhole os dbuf.length)
    (h : writeLoop olen os dbuf = some (r, out)) : Delivered dbuf r out := by
  induction os generalizing dbuf out r with
  | nil => simp [writeLoop] at h
  | cons o os ih =>
    cases o with
    | error =>
      obtain ⟨rfl, rfl⟩ : r = .socketError ∧ out = [] := by simpa [writeLoop, eq_comm] using h
      exact List.nil_prefix
    | wouldBlock => exact ih hb h
    | sent k =>
      rw [blocksWhole] at hb
      by_cases hlt : dbuf.length < 65536
      · rw [writeLoop_part hlt] at h
        rw [if_pos hlt] at hb
        by_cases hall : min (k + 1) dbuf.length = dbuf.length
        · rw [if_pos hall] at h
          obtain ⟨rfl, rfl⟩ := Prod.mk.inj (Option.some.inj h)
          rfl
        · rw [if_neg hall] at h
          obtain ⟨⟨r', out'⟩, hrec, he⟩ := Option.map_eq_some_iff.mp h
          obtain ⟨rfl, rfl⟩ := Prod.mk.inj he
          have hd := ih (by simpa [hall] using hb) hrec
          have happ := delivered_append (u := dbuf.take (min (k + 1) dbuf.length)) hd
          rwa [List.take_append_drop] at happ
      · rw [writeLoop_block hlt] at h
        rw [if_neg hlt] at hb
        obtain ⟨⟨r', out'⟩, hrec, he⟩ := Option.map_eq_some_iff.mp h
        obtain ⟨rfl, rfl⟩ := Prod.mk.inj he
        by_cases hk : 65536 ≤ k + 1
        · rw [if_pos hk] at hb
          have hd := ih (by simpa using hb) hrec
          have happ := delivered_append (u := dbuf.take 65536) hd
          rwa [List.take_append_drop, ← Nat.min_eq_right hk] at happ
        · -- a short block, and nothing after it
          rw [if_neg hk] at hb
          obtain ⟨rfl, rfl⟩ := writeLoop_quiet hb hrec
          simpa [Delivered] using List.take_prefix _ dbuf

theorem writeLoop_length (h : writeLoop olen os dbuf = some (r, out)) :
    out.length ≤ dbuf.length := by
  induction os generalizing dbuf out r with
  | nil => simp [writeLoop] at h
  | cons o os ih =>
    cases o with
    | error =>
      obtain ⟨_, rfl⟩ : r = .socketError ∧ out = [] := by simpa [writeLoop, eq_comm] using h
      simp
    | wouldBlock => exact ih h
    | sent k =>
      by_cases hlt : dbuf.length < 65536
      · rw [writeLoop_part hlt] at h
        by_cases hall : min (k + 1) dbuf.length = dbuf.length
        · rw [if_pos hall] at h
          obtain ⟨_, rfl⟩ := Prod.mk.inj (Option.some.inj h)
          exact le_rfl
        · rw [if_neg hall] at h
          obtain ⟨⟨r', out'⟩, hrec, he⟩ := Option.map_eq_some_iff.mp h
          obtain ⟨_, rfl⟩ := Prod.mk.inj he
          have hlen := ih hrec
          simp only [List.length_append, List.length_take, List.length_drop] at hlen ⊢
          omega
      · rw [writeLoop_block hlt] at h
        obtain ⟨⟨r', out'⟩, hrec, he⟩ := Option.map_eq_some_iff.mp h
        obtain ⟨_, rfl⟩ := Prod.mk.inj he
        have hlen := ih hrec
        simp only [List.length_append, List.length_take, List.length_drop] at hlen ⊢
        omega

/-- What is accepted before an error starts with the first byte left. -/
theorem writeLoop_first (hq : quiet os = false)
    (h : writeLoop olen os dbuf = some (.socketError, out)) :
    ∃ b t u, dbuf = b :: t ∧ out = b :: u := by
  induction os with
  | nil => simp [quiet] at hq
  | cons o os ih =>
    cases o with
    | error => simp [quiet] at hq
    | wouldBlock => exact ih hq h
    | sent k =>
      cases dbuf with
      | nil => simp [writeLoop] at h
      | cons b t =>
        by_cases hlt : (b :: t).length < 65536
        · rw [writeLoop_part hlt] at h
          split at h
          · cases h
          · obtain ⟨⟨r', out'⟩, _, he⟩ := Option.map_eq_some_iff.mp h
            obtain ⟨_, rfl⟩ := Prod.mk.inj he
            rw [show min (k + 1) (b :: t).length = min k t.length + 1 by simp]
            exact ⟨b, t, _, rfl, rfl⟩
        · rw [writeLoop_block hlt] at h
          obtain ⟨⟨r', out'⟩, _, he⟩ := Option.map_eq_some_iff.mp h
          obtain ⟨_, rfl⟩ := Prod.mk.inj he
          rw [show min (k + 1) 65536 = min k 65535 + 1 by omega]
          exact ⟨b, t, _, rfl, rfl⟩

/-- A short block that is followed by more loses bytes: zeros before the end of the block and
ones after it show the gap. -/
theorem exists_lost {k : Nat} (hn : 65536 ≤ n) (hk : k + 1 < 65536) (hq : quiet os = false)
    (hret : returns os (n - 65536)) :
    ∃ dbuf : Bytes, dbuf.length = n ∧ ∃ r out,
      writeLoop olen (.sent k :: os) dbuf = some (r, out) ∧ ¬ Delivered dbuf r out := by
  obtain ⟨zeros, hlen, hzero⟩ : ∃ z : Bytes, z.length = 65536 ∧ ∀ b ∈ z, b = 0 :=
    ⟨List.replicate 65536 0, List.length_replicate, fun b hb => List.eq_of_mem_replicate hb⟩
  obtain ⟨ones, hones, hone⟩ : ∃ z : Bytes, z.length = n - 65536 ∧ ∀ b ∈ z, b = 1 :=
    ⟨List.replicate (n - 65536) 1, List.length_replicate, fun b hb => List.eq_of_mem_replicate hb⟩
  have hsome : (writeLoop olen os ones).isSome := by rw [writeLoop_isSome, hones, hret]
  obtain ⟨⟨r, out⟩, hrun⟩ := Option.isSome_iff_exists.mp hsome
  have htotal : (zeros ++ ones).length = n := by rw [List.length_append]; omega
  have hdrop : (zeros ++ ones).drop 65536 = ones := by rw [← hlen, List.drop_left]
  have htake : (zeros ++ ones).take (k + 1) = zeros.take (k + 1) :=
    List.take_append_of_le_length (by omega)
  refine ⟨zeros ++ ones, htotal, r, zeros.take (k + 1) ++ out, ?_, ?_⟩
  · rw [writeLoop_block (by omega), hdrop, hrun, Nat.min_eq_left hk.le, htake]
    rfl
  · intro hd
    cases r with
    | olen m =>
      have hle := writeLoop_length hrun
      have heq := congrArg List.length (show zeros.take (k + 1) ++ out = zeros ++ ones from hd)
      simp only [List.length_append, List.length_take] at heq
      omega
    | socketError =>
      obtain ⟨b, t, u, rfl, rfl⟩ := writeLoop_first hq hrun
      have hp : zeros.take (k + 1) ++ b :: u <+: zeros ++ b :: t := hd
      obtain ⟨z, zs, hz⟩ := List.exists_cons_of_ne_nil
        (show zeros.drop (k + 1) ≠ [] by simp only [ne_eq, List.drop_eq_nil_iff]; omega)
      rw [show zeros ++ b :: t = zeros.take (k + 1) ++ (z :: zs ++ b :: t) by
        rw [← hz, ← List.append_assoc, List.take_append_drop]] at hp
      have hbz : b = z := (List.cons_prefix_cons.mp ((List.prefix_append_right_inj _).mp hp)).1
      have hb : b = 1 := hone b (by simp)
      have hz0 : z = 0 := hzero z (List.mem_of_mem_drop (i := k + 1) (by simp [hz]))
      simp [hb, hz0] at hbz

theorem exists_undelivered (hret : returns os n) (hb : blocksWhole os n = false) :
    ∃ dbuf : Bytes, dbuf.length = n ∧ ∃ r out,
      writeLoop olen os dbuf = some (r, out) ∧ ¬ Delivered dbuf r out := by
  induction os generalizing n with
  | nil => simp [returns] at hret
  | cons o os ih =>
    cases o with
    | error => simp [blocksWhole] at hb
    | wouldBlock => exact ih hret hb
    | sent k =>
      rw [returns] at hret
      rw [blocksWhole] at hb
      by_cases hlt : n < 65536
      · rw [if_pos hlt] at hret hb
        obtain ⟨hall, hb⟩ := Bool.or_eq_false_iff.mp hb
        rw [hall, Bool.false_or] at hret
        obtain ⟨rest, hlen, r, out, hrun, hd⟩ := ih hret hb
        have hne : min (k + 1) n ≠ n := by simpa using hall
        let sent : Bytes := List.replicate (min (k + 1) n) 0
        have htotal : (sent ++ rest).length = n := by
          simp only [sent, List.length_append, List.length_replicate, hlen]
          omega
        refine ⟨sent ++ rest, htotal, r, sent ++ out, ?_, ?_⟩
        · have hs : sent.length = min (k + 1) n := List.length_replicate
          rw [writeLoop_part (by omega), htotal, if_neg hne, ← hs, List.drop_left, hrun,
            List.take_left]
          rfl
        · rwa [delivered_append_iff]
      · rw [if_neg hlt] at hret hb
        by_cases hk : 65536 ≤ k + 1
        · rw [if_pos hk] at hb
          obtain ⟨rest, hlen, r, out, hrun, hd⟩ := ih hret hb
          obtain ⟨block, hblock⟩ : ∃ z : Bytes, z.length = 65536 :=
            ⟨List.replicate 65536 0, List.length_replicate⟩
          have htotal : (block ++ rest).length = n := by rw [List.length_append]; omega
          refine ⟨block ++ rest, htotal, r, block ++ out, ?_, ?_⟩
          · rw [writeLoop_block (by omega), Nat.min_eq_right hk, ← hblock, List.drop_left, hrun,
              List.take_left]
            rfl
          · rwa [delivered_append_iff]
        · rw [if_neg hk] at hb
          exact exists_lost (by omega) (by omega) hb hret

/-- A call that returns delivers every buffer of its length exactly when the outcomes let every
block through whole. -/
theorem writeToSocket_delivers_iff
    (hret : ∀ dbuf : Bytes, dbuf.length = n → (writeToSocket dbuf os).isSome) :
    (∀ dbuf r out, dbuf.length = n → writeToSocket dbuf os = some (r, out) →
      Delivered dbuf r out) ↔ blocksWhole os n := by
  constructor
  · intro h
    by_contra hb
    have hr : returns os n := by
      have hsome := hret (List.replicate n 0) List.length_replicate
      rwa [writeToSocket, writeLoop_isSome, List.length_replicate] at hsome
    obtain ⟨dbuf, hlen, r, out, hrun, hd⟩ : ∃ dbuf : Bytes, dbuf.length = n ∧ ∃ r out,
        writeLoop n os dbuf = some (r, out) ∧ ¬ Delivered dbuf r out :=
      exists_undelivered hr (by simpa using hb)
    exact hd (h dbuf r out hlen (by rw [writeToSocket, hlen, hrun]))
  · intro hb dbuf r out hlen hrun
    exact writeLoop_delivered (by rw [hlen, hb]) hrun

theorem writeToSocket_delivers_block_and_byte :
    (∀ dbuf r out, dbuf.length = 65537 →
      writeToSocket dbuf [.sent 65535, .sent 0] = some (r, out) → Delivered dbuf r out) ↔
    blocksWhole [.sent 65535, .sent 0] 65537 :=
  writeToSocket_delivers_iff fun dbuf hlen => by
    rw [writeToSocket, writeLoop_isSome, hlen]
    rfl

/-- One byte of the first block and the last byte are accepted, and the call reports success. -/
theorem writeToSocket_loses_block :
    writeToSocket (List.replicate 65537 7) [.sent 0, .sent 0] = some (.olen 65537, [7, 7]) ∧
    ¬ Delivered (List.replicate 65537 7) (.olen 65537) [7, 7] := by
  constructor
  · have hblock : ¬ (List.replicate 65537 (7 : Byte)).length < 65536 := by
      rw [List.length_replicate]; omega
    rw [writeToSocket, List.length_replicate, writeLoop_block hblock, List.drop_replicate,
      List.take_replicate]
    rfl
  · intro h
    have hlen := congrArg List.length (show ([7, 7] : Bytes) = List.replicate 65537 7 from h)
    rw [List.length_replicate] at hlen
    cases hlen

end MoonWiki
