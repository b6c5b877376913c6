import MoonWiki.FormDecoding

/-! How much of a request `parseHttpRequest` gets out of the chunks that arrive. -/
namespace MoonWiki
open Lua

/-! ### The header separator -/

/-- An empty line: CR LF CR LF. -/
def separator : Bytes := [13, 10, 13, 10]

theorem separator_pattern : pat "(\r\n\r\n)" =
    ⟨false, .startCapture :: (literalItems separator ++ [.endCapture])⟩ := by decide

/-- What follows the greedy part of the split. -/
def splitItems : List Item :=
  literalItems separator ++ [.endCapture, .startCapture, .single .any .star, .endCapture]

theorem split_pattern : pat "(.*\r\n\r\n)(.*)" =
    ⟨false, .startCapture :: .single .any .star :: splitItems⟩ := by decide

theorem found_separator {buffer : Bytes} :
    found (pat "(\r\n\r\n)") buffer = true ↔ ∃ u v, buffer = u ++ separator ++ v := by
  rw [separator_pattern]
  refine findFrom_isSome.trans ?_
  constructor
  · rintro ⟨u, v, rfl, hm⟩
    by_cases hp : separator <+: v
    · obtain ⟨w, rfl⟩ := hp
      exact ⟨u, w, by simp⟩
    · have hnone : matchHere (.startCapture :: (literalItems separator ++ [.endCapture])) v =
          none := matchHere_eq_none (doMatch_literal_none hp)
      rw [hnone] at hm
      cases hm
  · rintro ⟨u, v, rfl⟩
    refine ⟨u, separator ++ v, by simp, ?_⟩
    have hd : doMatch (.startCapture :: (literalItems separator ++ [.endCapture])) []
        (separator ++ v) = doMatch [.endCapture] [.unfinished (separator ++ v)] v :=
      doMatch_literal separator _ _ v
    rw [matchHere_of_doMatch hd]
    rfl

theorem doMatch_splitItems {init v : Bytes} :
    doMatch splitItems [.unfinished init] (separator ++ v) =
      some ([], [.done (init.take (init.length - v.length)), .done v]) := by
  have hstar : doMatch [.startCapture, .single .any .star, .endCapture]
      [.done (init.take (init.length - v.length))] (v ++ []) =
        some ([], [.done (init.take (init.length - v.length)), .done v]) :=
    doMatch_capture_star (fun _ _ => rfl) (by simp) rfl
  rw [List.append_nil] at hstar
  exact (doMatch_literal separator _ _ v).trans hstar

/-- The split is at the last separator. -/
theorem splitHeader_last {u v : Bytes}
    (hlast : ∀ w x, separator ++ v = w ++ x → w ≠ [] → ¬ separator <+: x) :
    splitHeader (u ++ separator ++ v) = some (u ++ separator, v) := by
  have hmax : maxExpand (singleMatch · .any)
      (doMatch splitItems [.unfinished (u ++ separator ++ v)]) (u ++ (separator ++ v)) =
        some ([], [.done (u ++ separator), .done v]) := by
    refine maxExpand_last (fun _ _ => rfl) ?_ ?_
    · have hlen : (u ++ separator ++ v).length - v.length = (u ++ separator).length := by
        rw [List.length_append]
        exact Nat.add_sub_cancel _ _
      rw [doMatch_splitItems, hlen, List.take_left]
    · intro w x hwx hw _
      exact doMatch_literal_none (hlast w x hwx hw)
  have hm : matchHere (.startCapture :: .single .any .star :: splitItems)
      ((u ++ separator ++ v) ++ []) =
        some ⟨u ++ separator ++ v, [u ++ separator, v], []⟩ := by
    refine matchHere_of_doMatch (c := [.done (u ++ separator), .done v]) ?_
    rw [List.append_nil]
    rw [List.append_assoc] at hmax ⊢
    exact hmax
  rw [List.append_nil] at hm
  have hne : u ++ separator ++ v ≠ [] := by simp [separator]
  rw [splitHeader, split_pattern, gfind_hit hm hne, gfind_nil rfl]
  rfl

/-- No empty line of the text stands elsewhere than before `p`. -/
def OnceBefore (text p : Bytes) : Prop := ∀ u v, text = u ++ separator ++ v → v = p

theorem onceBefore_iff {text p : Bytes} :
    OnceBefore text p ↔ ∀ i < text.length, separator <+: text.drop i → text.drop (i + 4) = p := by
  constructor
  · rintro h i _ ⟨v, hv⟩
    have hv' : v = p := by
      refine h (text.take i) v ?_
      rw [List.append_assoc, hv, List.take_append_drop]
    rw [← hv', ← List.drop_drop, ← hv]
    rfl
  · rintro h u v rfl
    have hdrop : (u ++ separator ++ v).drop u.length = separator ++ v := by
      rw [List.append_assoc]
      exact List.drop_left
    have hp := h u.length (by simp [separator]) (hdrop ▸ List.prefix_append _ _)
    rwa [← List.drop_drop, hdrop] at hp

instance (text p : Bytes) : Decidable (OnceBefore text p) := decidable_of_iff _ onceBefore_iff.symm

/-- A header block, ended by its first empty line. -/
structure HeaderBlock (h : Bytes) : Prop where
  ended : separator <:+ h
  first : OnceBefore h []

theorem exists_last_separator {u v : Bytes} :
    ∃ u' v', u ++ separator ++ v = u' ++ separator ++ v' ∧
      ∀ w x, separator ++ v' = w ++ x → w ≠ [] → ¬ separator <+: x := by
  induction hn : v.length using Nat.strong_induction_on generalizing u v with
  | _ n ih =>
    by_cases hlast : ∀ w x, separator ++ v = w ++ x → w ≠ [] → ¬ separator <+: x
    · exact ⟨u, v, rfl, hlast⟩
    · push Not at hlast
      obtain ⟨w, x, hwx, hw, y, rfl⟩ := hlast
      have hlen := congrArg List.length hwx
      have hpos := List.length_pos_iff.mpr hw
      simp only [List.length_append] at hlen
      obtain ⟨u', v', hu', hlast'⟩ := ih y.length (by omega) (u := u ++ w) (v := y) rfl
      refine ⟨u', v', ?_, hlast'⟩
      rw [← hu', List.append_assoc, hwx]
      simp

/-- The split gives the header block back when it holds the only empty line. -/
theorem splitHeader_once {h p : Bytes} (hh : HeaderBlock h) (ho : OnceBefore (h ++ p) p) :
    splitHeader (h ++ p) = some (h, p) := by
  obtain ⟨line, rfl⟩ := hh.ended
  refine splitHeader_last ?_
  intro w x hwx hw hx
  obtain ⟨y, rfl⟩ := hx
  have hy : y = p := by
    refine ho (line ++ w) y ?_
    rw [List.append_assoc, hwx]
    simp
  have hlen := congrArg List.length hwx
  have hpos := List.length_pos_iff.mpr hw
  rw [hy] at hlen
  simp only [List.length_append] at hlen
  omega

/-- A second empty line moves the split behind the header block. -/
theorem splitHeader_again {h p : Bytes} (hh : HeaderBlock h) (ho : ¬ OnceBefore (h ++ p) p) :
    ∃ header data, splitHeader (h ++ p) = some (header, data) ∧ header ≠ h := by
  obtain ⟨line, rfl⟩ := hh.ended
  obtain ⟨u, v, huv, hlast⟩ := exists_last_separator (u := line) (v := p)
  refine ⟨u ++ separator, v, huv ▸ splitHeader_last hlast, ?_⟩
  intro hheader
  have hv : p = v := by
    rw [hheader] at huv
    exact List.append_cancel_left huv
  subst hv
  obtain ⟨u', v', hu', hv'⟩ : ∃ u' v', line ++ separator ++ p = u' ++ separator ++ v' ∧ v' ≠ p := by
    simpa [OnceBefore] using ho
  rw [← hheader] at hu'
  rcases List.append_eq_append_iff.mp
    (by simpa using hu' : u ++ (separator ++ p) = u' ++ (separator ++ v')) with
    ⟨w, rfl, hw⟩ | ⟨w, rfl, hw⟩
  · cases w with
    | nil => exact hv' (List.append_cancel_left hw).symm
    | cons b w => exact hlast (b :: w) _ hw (by simp) (List.prefix_append _ _)
  · have hsuffix : p <:+ separator ++ v' := by
      rw [hw]
      exact ⟨w ++ separator, by simp⟩
    have hsuffix : p <:+ v' := by
      refine List.suffix_of_suffix_length_le hsuffix (List.suffix_append _ _) ?_
      have hlen := congrArg List.length hw
      simp only [List.length_append] at hlen
      omega
    obtain ⟨t, rfl⟩ := hsuffix
    have ht : t = [] := by
      refine hh.first u' t ?_
      rw [← hheader]
      have hw' : (u' ++ separator ++ t) ++ p = (u' ++ w ++ separator) ++ p := by simpa using hw
      exact (List.append_cancel_right hw').symm
    exact hv' (by rw [ht, List.nil_append])

/-! ### The chunks -/

/-- What is left of a chunk stands before the chunks to come. -/
def addChunk (c : Bytes) (cs : List Bytes) : List Bytes := if c = [] then cs else c :: cs

/-- What has arrived when reads of at most 512 bytes have brought `n` bytes, and the chunks
still to come. The last read ends where its chunk ends or at a multiple of 512 in it. -/
def arrived (n : Nat) : List Bytes → Bytes × List Bytes
  | [] => ([], [])
  | c :: cs =>
    if c.length < n then
      let (bytes, rest) := arrived (n - c.length) cs
      (c ++ bytes, rest)
    else
      let k := 512 * ((n + 511) / 512)
      (c.take k, addChunk (c.drop k) cs)

theorem arrived_flatten (n : Nat) (chunks : List Bytes) :
    (arrived n chunks).1 ++ (arrived n chunks).2.flatten = chunks.flatten := by
  induction chunks generalizing n with
  | nil => rfl
  | cons c cs ih =>
    rw [arrived]
    split
    · simp [ih]
    · have hadd : ∀ k, c.take k ++ (addChunk (c.drop k) cs).flatten = c ++ cs.flatten := by
        intro k
        rw [addChunk]
        split
        · rename_i h
          rw [List.take_of_length_le (List.drop_eq_nil_iff.mp h)]
        · rw [List.flatten_cons, ← List.append_assoc, List.take_append_drop]
      exact hadd _

theorem arrived_zero {chunks : List Bytes} (h : ∀ c ∈ chunks, c ≠ []) :
    arrived 0 chunks = ([], chunks) := by
  cases chunks with
  | nil => rfl
  | cons c cs => simp [arrived, addChunk, h c (by simp)]

theorem arrived_length {n : Nat} {chunks : List Bytes} (h : n ≤ chunks.flatten.length) :
    n ≤ (arrived n chunks).1.length := by
  induction chunks generalizing n with
  | nil => exact h
  | cons c cs ih =>
    rw [List.flatten_cons, List.length_append] at h
    rw [arrived]
    split
    · have hcs : n - c.length ≤ cs.flatten.length := by omega
      have hlen := ih hcs
      rw [List.length_append]
      omega
    · rw [List.length_take]
      omega

/-- One read takes the head of the next chunk. -/
theorem arrived_step {n : Nat} {c : Bytes} {cs : List Bytes} (hn : 0 < n)
    (hcs : ∀ d ∈ cs, d ≠ []) :
    arrived n (c :: cs) =
      let more := arrived (n - (c.take 512).length) (addChunk (c.drop 512) cs)
      (c.take 512 ++ more.1, more.2) := by
  by_cases hc : c.length ≤ 512
  · have htake : c.take 512 = c := List.take_of_length_le hc
    have hdrop : c.drop 512 = [] := List.drop_eq_nil_iff.mpr hc
    rw [htake, hdrop, addChunk, if_pos rfl]
    by_cases hlt : c.length < n
    · rw [arrived, if_pos hlt]
    · have hk : 512 * ((n + 511) / 512) = 512 := by omega
      have hzero : n - c.length = 0 := by omega
      simp [arrived, hlt, hk, htake, hdrop, hzero, arrived_zero hcs, addChunk]
  · have hlen : (c.take 512).length = 512 := by
      rw [List.length_take]
      omega
    have hdrop : c.drop 512 ≠ [] := fun h => hc (List.drop_eq_nil_iff.mp h)
    have hdl : (c.drop 512).length = c.length - 512 := List.length_drop
    rw [hlen, addChunk, if_neg hdrop]
    by_cases hlt : c.length < n
    · have hlt' : (c.drop 512).length < n - 512 := by omega
      have hsub : n - 512 - (c.drop 512).length = n - c.length := by omega
      rw [arrived, if_pos hlt, arrived, if_pos hlt', hsub]
      simp only [← List.append_assoc, List.take_append_drop]
    · have hlt' : ¬ (c.drop 512).length < n - 512 := by omega
      have hk : 512 * ((n + 511) / 512) = 512 + 512 * ((n - 512 + 511) / 512) := by omega
      rw [arrived, if_neg hlt, arrived, if_neg hlt', hk]
      simp only [List.take_add, List.drop_drop]

/-! ### The header loop -/

theorem addChunk_nonempty {c : Bytes} {cs : List Bytes} (h : ∀ d ∈ cs, d ≠ []) :
    ∀ d ∈ addChunk c cs, d ≠ [] := by
  intro d hd
  by_cases hc : c = []
  · rw [addChunk, if_pos hc] at hd
    exact h d hd
  · rw [addChunk, if_neg hc] at hd
    rcases List.mem_cons.mp hd with rfl | hd
    · exact hc
    · exact h d hd

theorem recv_cons {sock : Socket} {c : Bytes} {cs : List Bytes} {size : Nat}
    (hs : sock.chunks = c :: cs) (hsize : size ≠ 0) :
    ∃ sock', sock.recv size = (some (c.take size), sock') ∧
      sock'.chunks = addChunk (c.drop size) cs ∧ sock'.alloc = sock.alloc := by
  obtain ⟨chunks, nonempty, alloc⟩ := sock
  simp only at hs
  subst hs
  have hcs : ∀ d ∈ cs, d ≠ [] := fun d hd => nonempty d (by simp [hd])
  refine ⟨⟨addChunk (c.drop size) cs, addChunk_nonempty hcs, alloc⟩, ?_, rfl, rfl⟩
  by_cases hle : c.length ≤ size
  · simp [Socket.recv, addChunk, hsize, hle, List.take_of_length_le hle]
  · simp [Socket.recv, addChunk, hsize, hle]

theorem recv_nil {sock : Socket} {size : Nat} (hs : sock.chunks = []) :
    sock.recv size = (none, sock) := by
  obtain ⟨chunks, nonempty, alloc⟩ := sock
  simp only at hs
  subst hs
  rfl

/-- The header block has arrived when the buffer holds an empty line. -/
theorem found_iff_covers {h buffer rest body : Bytes} (hh : HeaderBlock h)
    (hs : buffer ++ rest = h ++ body) :
    found (pat "(\r\n\r\n)") buffer = true ↔ h.length ≤ buffer.length := by
  rw [found_separator]
  constructor
  · rintro ⟨u, v, rfl⟩
    by_contra hlt
    obtain ⟨t, rfl⟩ : u ++ separator ++ v <+: h :=
      List.prefix_of_prefix_length_le (hs ▸ List.prefix_append _ _) (List.prefix_append _ _)
        (by omega)
    have hvt := hh.first u (v ++ t) (by simp)
    have ht : t = [] := (List.append_eq_nil_iff.mp hvt).2
    simp [ht] at hlt
  · intro hle
    obtain ⟨t, rfl⟩ : h <+: buffer :=
      List.prefix_of_prefix_length_le (List.prefix_append _ _) (hs ▸ List.prefix_append _ _) hle
    obtain ⟨line, rfl⟩ := hh.ended
    exact ⟨line, t, rfl⟩

/-- One read of the header loop: it takes the next bytes of the stream. -/
theorem read_piece {sock : Socket} (halloc : sock.alloc 512 = some 512) (hs : sock.chunks ≠ []) :
    ∃ piece sock', readFromSocket 512 sock = (some piece, sock') ∧ piece ≠ [] ∧
      sock.stream = piece ++ sock'.stream ∧ sock'.alloc = sock.alloc ∧
      ∀ n, 0 < n → arrived n sock.chunks =
        (piece ++ (arrived (n - piece.length) sock'.chunks).1,
          (arrived (n - piece.length) sock'.chunks).2) := by
  obtain ⟨c, cs, hcs⟩ := List.exists_cons_of_ne_nil hs
  have hc : c ≠ [] := sock.nonempty c (by simp [hcs])
  have hcs' : ∀ d ∈ cs, d ≠ [] := fun d hd => sock.nonempty d (by simp [hcs, hd])
  obtain ⟨sock', hrecv, hchunks, halloc'⟩ := recv_cons hcs (by decide : 512 ≠ 0)
  refine ⟨c.take 512, sock', ?_, ?_, ?_, halloc', ?_⟩
  · rw [readFromSocket, halloc]
    exact hrecv
  · simpa using hc
  · rw [Socket.stream, Socket.stream, hcs, hchunks, addChunk]
    split
    · rename_i hdrop
      rw [List.take_of_length_le (List.drop_eq_nil_iff.mp hdrop), List.flatten_cons]
    · rw [List.flatten_cons, List.flatten_cons, ← List.append_assoc, List.take_append_drop]
  · intro n hn
    rw [hcs, arrived_step hn hcs', hchunks]

/-- The loop stops at the read that completes the header block. -/
theorem readHeader_arrived {h body : Bytes} (hh : HeaderBlock h) {fuel : Nat} {buffer : Bytes}
    {sock : Socket} (halloc : sock.alloc 512 = some 512)
    (hs : buffer ++ sock.stream = h ++ body) (hlt : buffer.length < h.length)
    (hfuel : sock.stream.length < fuel) :
    ∃ sock', readHeader fuel buffer sock =
        (some (buffer ++ (arrived (h.length - buffer.length) sock.chunks).1), sock') ∧
      sock'.chunks = (arrived (h.length - buffer.length) sock.chunks).2 ∧
      sock'.alloc = sock.alloc := by
  induction fuel generalizing buffer sock with
  | zero => omega
  | succ fuel ih =>
    have hne : sock.chunks ≠ [] := by
      intro hnil
      have hlen := congrArg List.length hs
      simp only [Socket.stream, hnil, List.flatten_nil, List.length_append, List.length_nil] at hlen
      omega
    obtain ⟨piece, sock', hread, hpiece, hstream, halloc', harrived⟩ := read_piece halloc hne
    have hpos := List.length_pos_iff.mpr hpiece
    have hlen : (buffer ++ piece).length = buffer.length + piece.length := List.length_append
    have hs' : (buffer ++ piece) ++ sock'.stream = h ++ body := by
      rw [← hs, hstream, List.append_assoc]
    rw [harrived _ (by omega), readHeader, hread, Nat.sub_sub, ← hlen]
    by_cases hcover : h.length ≤ (buffer ++ piece).length
    · have hfound := (found_iff_covers hh hs').mpr hcover
      have hzero : h.length - (buffer ++ piece).length = 0 := by omega
      rw [hzero, arrived_zero sock'.nonempty]
      refine ⟨sock', ?_, rfl, halloc'⟩
      simp [hfound]
    · have hnot : ¬ found (pat "(\r\n\r\n)") (buffer ++ piece) = true :=
        fun hf => hcover ((found_iff_covers hh hs').mp hf)
      have hfuel' : sock'.stream.length < fuel := by
        rw [hstream, List.length_append] at hfuel
        omega
      obtain ⟨sock'', hrun, hrest, halloc''⟩ := ih (halloc' ▸ halloc) hs' (by omega) hfuel'
      refine ⟨sock'', ?_, hrest, halloc''.trans halloc'⟩
      rw [List.append_assoc] at hrun
      simpa [hnot] using hrun

/-! ### The body -/

theorem readBody_none {s : State}
    (hlen : s.request.options.get (str "content-length") = none) :
    readBody s = (.ok true, s) := by
  simp [readBody, Run.bind_apply, hlen]

theorem readBody_error {s : State} {value : Bytes}
    (hlen : s.request.options.get (str "content-length") = some value)
    (hn : toNumber value = none) : readBody s = (.error .arithmetic, s) := by
  simp [readBody, Run.bind_apply, hlen, hn]

/-- The state after the form was parsed. -/
def State.withPostData (s : State) (postData : Bytes) : State :=
  { s with request := { s.request with
    postData, form := parseFields postData s.request.form } }

theorem readBody_number {s : State} {value : Bytes} {n : Rat}
    (hlen : s.request.options.get (str "content-length") = some value)
    (hn : toNumber value = some n) :
    readBody s =
      if n = s.request.postData.length then (.ok true, s.withPostData s.request.postData)
      else match readFromSocket (n - s.request.postData.length) s.socket with
        | (none, socket) => (.ok false, { s with socket }.failed 500)
        | (some bytes, socket) =>
          (.ok true, { s with socket }.withPostData (s.request.postData ++ bytes)) := by
  by_cases heq : n = s.request.postData.length
  · simp [readBody, Run.bind_apply, hlen, hn, heq, setRequest, State.withPostData]
  · have hne : n - s.request.postData.length ≠ 0 := fun h => heq (by grind)
    rw [if_neg heq]
    rcases hread : readFromSocket (n - s.request.postData.length) s.socket with ⟨_ | bytes, socket⟩
    · simp [readBody, Run.bind_apply, hlen, hn, hne, readFrom, hread]
    · simp [readBody, Run.bind_apply, hlen, hn, hne, readFrom, hread, setRequest,
        State.withPostData]

/-- How the rest of the body has to come: with the header block, or in one chunk that the
single further read takes whole. The value of the Content-Length field is `length`; `p` came
with the header block, and `rest` are the chunks after it. -/
def BodyTaken (alloc : Rat → Option Nat) (length : Option Bytes) (p body : Bytes)
    (rest : List Bytes) : Prop :=
  (p = body ∧ ∀ value, length = some value → toNumber value = some (body.length : Rat)) ∨
  ∃ value n size r, length = some value ∧ toNumber value = some n ∧ n ≠ p.length ∧
    alloc (n - p.length) = some size ∧ rest = [r] ∧ r.length ≤ size

theorem readFromSocket_eq (n : Rat) (sock : Socket) :
    (readFromSocket n sock).1 = (sock.alloc n).bind fun size =>
      if size = 0 then none else sock.chunks.head?.map (·.take size) := by
  rw [readFromSocket]
  cases sock.alloc n with
  | none => rfl
  | some size =>
    cases hs : sock.chunks with
    | nil => simp [recv_nil hs]
    | cons c cs =>
      by_cases hsize : size = 0
      · subst hsize
        obtain ⟨chunks, nonempty, alloc⟩ := sock
        simp only at hs
        subst hs
        rfl
      · obtain ⟨sock', hrecv, _⟩ := recv_cons hs hsize
        simp [hrecv, hsize]

/-- The single further read completes the body when it gets the one chunk that is left. -/
theorem read_rest_iff {sock : Socket} {n : Rat} {p body : Bytes} (hs : p ++ sock.stream = body) :
    (∃ bytes, (readFromSocket n sock).1 = some bytes ∧ p ++ bytes = body) ↔
      ∃ size r, sock.alloc n = some size ∧ sock.chunks = [r] ∧ r.length ≤ size := by
  rw [readFromSocket_eq]
  constructor
  · rintro ⟨bytes, hread, hbody⟩
    cases halloc : sock.alloc n with
    | none => simp [halloc] at hread
    | some size =>
      cases hc : sock.chunks with
      | nil => simp [halloc, hc] at hread
      | cons c cs =>
        simp only [halloc, hc, Option.bind_some, List.head?_cons, Option.map_some] at hread
        split at hread
        · cases hread
        · obtain rfl := Option.some.inj hread
          have hboth : p ++ c.take size = p ++ (c ++ cs.flatten) := by
            rw [hbody, ← hs, Socket.stream, hc, List.flatten_cons]
          have heq := List.append_cancel_left hboth
          have hlen := congrArg List.length heq
          simp only [List.length_take, List.length_append] at hlen
          have hcs : cs = [] := by
            by_contra hne
            obtain ⟨d, ds, rfl⟩ := List.exists_cons_of_ne_nil hne
            have hd : d ≠ [] := sock.nonempty d (by simp [hc])
            have := List.length_pos_iff.mpr hd
            simp only [List.flatten_cons, List.length_append] at hlen
            omega
          exact ⟨size, c, rfl, by rw [hcs], by omega⟩
  · rintro ⟨size, r, halloc, hc, hle⟩
    have hr : r ≠ [] := sock.nonempty r (by simp [hc])
    have hsize : size ≠ 0 := by
      have := List.length_pos_iff.mpr hr
      omega
    refine ⟨r, ?_, ?_⟩
    · simp [halloc, hc, hsize, List.take_of_length_le hle]
    · rw [← hs, Socket.stream, hc, List.flatten_singleton]

theorem readBody_whole_iff {s : State} {body : Bytes}
    (hs : s.request.postData ++ s.socket.stream = body) :
    (∃ s', readBody s = (.ok true, s') ∧ s'.request.header = s.request.header ∧
      s'.request.postData = body) ↔
      BodyTaken s.socket.alloc (s.request.options.get (str "content-length"))
        s.request.postData body s.socket.chunks := by
  cases hlen : s.request.options.get (str "content-length") with
  | none =>
    rw [readBody_none hlen]
    simp [BodyTaken]
  | some value =>
    cases hn : toNumber value with
    | none =>
      rw [readBody_error hlen hn]
      simp [BodyTaken, hn]
    | some n =>
      rw [readBody_number hlen hn]
      by_cases heq : n = s.request.postData.length
      · rw [if_pos heq]
        constructor
        · rintro ⟨s', hrun, _, hbody⟩
          obtain rfl := (Prod.mk.inj hrun).2
          have hp : s.request.postData = body := hbody
          refine .inl ⟨hp, ?_⟩
          rintro v ⟨⟩
          rw [hn, heq, hp]
        · rintro (⟨hp, _⟩ | ⟨v, m, _, _, hv, hm, hne, _⟩)
          · exact ⟨_, rfl, rfl, hp⟩
          · obtain rfl := Option.some.inj hv
            rw [hn] at hm
            exact absurd (Option.some.inj hm ▸ heq) hne
      · have hrest := read_rest_iff (n := n - s.request.postData.length) hs
        rw [if_neg heq]
        constructor
        · rintro ⟨s', hrun, _, hbody⟩
          rcases hread : readFromSocket (n - s.request.postData.length) s.socket with
            ⟨_ | bytes, socket⟩
          · rw [hread] at hrun
            simp at hrun
          · rw [hread] at hrun
            obtain rfl := (Prod.mk.inj hrun).2
            obtain ⟨size, r, halloc, hc, hle⟩ := hrest.mp ⟨bytes, by rw [hread], hbody⟩
            exact .inr ⟨value, n, size, r, rfl, hn, heq, halloc, hc, hle⟩
        · rintro (⟨hp, hv⟩ | ⟨v, m, size, r, hv, hm, _, halloc, hc, hle⟩)
          · have hbad := hv value rfl
            rw [hn, ← hp] at hbad
            exact absurd (Option.some.inj hbad) heq
          · obtain rfl := Option.some.inj hv
            rw [hn] at hm
            obtain rfl := Option.some.inj hm
            obtain ⟨bytes, hread, hbody⟩ := hrest.mpr ⟨size, r, halloc, hc, hle⟩
            rcases hpair : readFromSocket (n - s.request.postData.length) s.socket with
              ⟨res, socket⟩
            rw [hpair] at hread
            obtain rfl : res = some bytes := hread
            exact ⟨_, rfl, rfl, hbody⟩

/-- With the length of the body in the field, all of the rest has to come as one chunk. -/
theorem bodyTaken_iff {alloc : Rat → Option Nat} {value p body : Bytes} {rest : List Bytes}
    (hv : IsDecimal value body.length) (halloc : ∀ n : Nat, alloc n = some n)
    (hp : p ++ rest.flatten = body) (hne : ∀ c ∈ rest, c ≠ []) :
    BodyTaken alloc (some value) p body rest ↔ rest.length ≤ 1 := by
  have hn := toNumber_of_isDecimal hv
  constructor
  · rintro (⟨hbody, _⟩ | ⟨_, _, _, r, _, _, _, _, hr, _⟩)
    · have hflat : rest.flatten = [] := by
        rw [← hp] at hbody
        simpa using hbody
      cases rest with
      | nil => simp
      | cons c cs =>
        have hc := hne c (by simp)
        simp_all
    · simp [hr]
  · intro hle
    cases rest with
    | nil =>
      refine .inl ⟨by simpa using hp, ?_⟩
      rintro v ⟨⟩
      exact hn
    | cons c cs =>
      have hcs : cs = [] := by simpa using hle
      subst hcs
      have hc := List.length_pos_iff.mpr (hne c (by simp))
      have hbody : body.length = p.length + c.length := by
        rw [← hp]
        simp
      have hsub : (body.length : Rat) - p.length = (c.length : Nat) := by
        rw [hbody]
        push_cast
        grind
      refine .inr ⟨value, body.length, c.length, c, rfl, hn, ?_, ?_, rfl, Nat.le_refl _⟩
      · intro heq
        have : body.length = p.length := by exact_mod_cast heq
        omega
      · rw [hsub, halloc]

/-! ### The request -/

/-- The method of the header block is one the server handles. -/
def Supported (h : Bytes) : Prop :=
  httpMethods (upper (parseRequestLine { header := h }).method) = some true

instance : DecidablePred Supported := fun _ => inferInstanceAs (Decidable (_ = _))

/-- The chunks bring the request in a way `parseHttpRequest` reads whole. -/
structure ArrivesWell (h body : Bytes) (sock : Socket) : Prop where
  supported : Supported h
  once : OnceBefore (arrived h.length sock.chunks).1
    ((arrived h.length sock.chunks).1.drop h.length)
  taken : BodyTaken sock.alloc ((parseOptions h .empty).get (str "content-length"))
    ((arrived h.length sock.chunks).1.drop h.length) body (arrived h.length sock.chunks).2

/-- What `parseHttpRequest` does after the header block has arrived and was split off. -/
theorem parseHttpRequest_split {s : State} {buffer header postData : Bytes} {socket : Socket}
    {request : Request}
    (hread : readHeader (s.socket.stream.length + 1) [] s.socket = (some buffer, socket))
    (hsplit : splitHeader buffer = some (header, postData))
    (hline : parseRequestLine { s.request with header, postData } = request) :
    parseHttpRequest s =
      match httpMethods (upper request.method) with
      | none => (.ok false, { s with socket, request }.failed 400)
      | some false => (.ok false, { s with socket, request }.failed 501)
      | some true => readBody { s with socket, request := parseHeaderFields request } := by
  subst hline
  simp only [parseHttpRequest, Run.bind_apply, Run.get_apply, hread, Run.modify_apply, hsplit,
    setRequest]
  rcases httpMethods (upper (parseRequestLine { s.request with header, postData }).method) with
    _ | _ | _ <;> rfl

theorem parseRequestLine_header (r : Request) : (parseRequestLine r).header = r.header := by
  rw [parseRequestLine]
  split <;> rfl

theorem parseRequestLine_postData (r : Request) : (parseRequestLine r).postData = r.postData := by
  rw [parseRequestLine]
  split <;> rfl

theorem parseRequestLine_options (r : Request) : (parseRequestLine r).options = r.options := by
  rw [parseRequestLine]
  split <;> rfl

/-- The method depends on the header block alone. -/
theorem parseRequestLine_method (h p : Bytes) :
    (parseRequestLine { header := h, postData := p }).method =
      (parseRequestLine { header := h }).method := by
  simp only [parseRequestLine]
  cases requestLine h <;> rfl

/-- Reading the body changes the request in the body and the form only. -/
theorem readBody_kept {s s' : State} {result : Except LuaError Bool}
    (h : readBody s = (result, s')) :
    (∃ postData form, s'.request = { s.request with postData, form }) ∧
      (result = .ok true → s'.response = s.response) := by
  cases hlen : s.request.options.get (str "content-length") with
  | none =>
    rw [readBody_none hlen] at h
    rw [← (Prod.mk.inj h).2]
    exact ⟨⟨_, _, rfl⟩, fun _ => rfl⟩
  | some value =>
    cases hn : toNumber value with
    | none =>
      rw [readBody_error hlen hn] at h
      rw [← (Prod.mk.inj h).2]
      exact ⟨⟨_, _, rfl⟩, fun _ => rfl⟩
    | some n =>
      rw [readBody_number hlen hn] at h
      split at h
      · rw [← (Prod.mk.inj h).2]
        exact ⟨⟨_, _, rfl⟩, fun _ => rfl⟩
      · split at h
        · rw [← (Prod.mk.inj h).1, ← (Prod.mk.inj h).2]
          exact ⟨⟨_, _, rfl⟩, by simp⟩
        · rw [← (Prod.mk.inj h).2]
          exact ⟨⟨_, _, rfl⟩, fun _ => rfl⟩

theorem readBody_header {s s' : State} {result : Except LuaError Bool}
    (h : readBody s = (result, s')) : s'.request.header = s.request.header := by
  obtain ⟨⟨postData, form, hrequest⟩, _⟩ := readBody_kept h
  rw [hrequest]

theorem readHeader_found {fuel : Nat} {buffer text : Bytes} {sock sock' : Socket}
    (h : readHeader fuel buffer sock = (some text, sock')) :
    found (pat "(\r\n\r\n)") text = true := by
  induction fuel generalizing buffer sock with
  | zero => cases h
  | succ fuel ih =>
    rw [readHeader] at h
    split at h
    · cases h
    · dsimp only at h
      split at h
      · obtain rfl := Option.some.inj (Prod.mk.inj h).1
        assumption
      · exact ih h

theorem splitHeader_found {text : Bytes} (h : found (pat "(\r\n\r\n)") text = true) :
    ∃ header postData, splitHeader text = some (header, postData) := by
  obtain ⟨u, v, rfl⟩ := found_separator.mp h
  obtain ⟨u', v', heq, hlast⟩ := exists_last_separator (u := u) (v := v)
  exact ⟨_, _, heq ▸ splitHeader_last hlast⟩

/-- The header block that the reading loop splits off, and what came with it. -/
def receivedHeader (sock : Socket) : Option (Bytes × Bytes) :=
  (readHeader (sock.stream.length + 1) [] sock).1.bind splitHeader

/-- Parsing fails with an error status, or gets as far as the body. -/
theorem parseHttpRequest_cases (s : State) :
    (∃ socket request, ∃ status ∈ [500, 400, 501],
      parseHttpRequest s = (.ok false, { s with socket, request }.failed status)) ∧
      (∀ header postData, receivedHeader s.socket = some (header, postData) →
        httpMethods (upper (parseRequestLine { s.request with header, postData }).method) ≠
          some true) ∨
    ∃ socket header postData, receivedHeader s.socket = some (header, postData) ∧
      httpMethods (upper (parseRequestLine { s.request with header, postData }).method) =
        some true ∧
      parseHttpRequest s = readBody { s with
        socket, request := parseHeaderFields (parseRequestLine { s.request with
          header, postData }) } := by
  rcases hread : readHeader (s.socket.stream.length + 1) [] s.socket with ⟨_ | text, socket⟩
  · refine .inl ⟨⟨socket, s.request, 500, by simp, ?_⟩, ?_⟩
    · simp [parseHttpRequest, Run.bind_apply, hread]
    · simp [receivedHeader, hread]
  · obtain ⟨header, postData, hsplit⟩ := splitHeader_found (readHeader_found hread)
    have hreceived : receivedHeader s.socket = some (header, postData) := by
      rw [receivedHeader, hread]
      exact hsplit
    rw [parseHttpRequest_split hread hsplit rfl, hreceived]
    rcases hmethod : httpMethods (upper (parseRequestLine { s.request with
      header, postData }).method) with _ | _ | _
    · refine .inl ⟨⟨socket, _, 400, by simp, rfl⟩, ?_⟩
      rintro _ _ ⟨⟩
      simp [hmethod]
    · refine .inl ⟨⟨socket, _, 501, by simp, rfl⟩, ?_⟩
      rintro _ _ ⟨⟩
      simp [hmethod]
    · exact .inr ⟨socket, header, postData, rfl, hmethod, rfl⟩

/-- Header block and body come out whole exactly when the chunks bring them well. -/
theorem parseHttpRequest_whole_iff {h body : Bytes} {sock : Socket} (sortByDate : DateSort)
    (disk : Disk) (hh : HeaderBlock h) (hs : sock.stream = h ++ body)
    (halloc : sock.alloc 512 = some 512) :
    (∃ s', parseHttpRequest (WikiEngine.new sortByDate sock disk) = (.ok true, s') ∧
      s'.request.header = h ∧ s'.request.postData = body) ↔ ArrivesWell h body sock := by
  have hpos : 0 < h.length := by
    obtain ⟨line, rfl⟩ := hh.ended
    simp [separator]
  obtain ⟨sock', hread, hrest, halloc'⟩ := readHeader_arrived hh halloc
    (by simpa using hs : [] ++ sock.stream = h ++ body) hpos (Nat.lt_succ_self _)
  simp only [List.nil_append, List.length_nil, Nat.sub_zero] at hread hrest
  have hflat := arrived_flatten h.length sock.chunks
  change _ = sock.stream at hflat
  obtain ⟨p, hp⟩ : h <+: (arrived h.length sock.chunks).1 := by
    refine List.prefix_of_prefix_length_le (hs ▸ List.prefix_append _ _)
      (hflat ▸ List.prefix_append _ _) (arrived_length ?_)
    change _ ≤ sock.stream.length
    simp [hs]
  have hdrop : (arrived h.length sock.chunks).1.drop h.length = p := by
    rw [← hp]
    exact List.drop_left
  have hbody : p ++ sock'.stream = body := by
    rw [hs, ← hp, List.append_assoc] at hflat
    rw [Socket.stream, hrest]
    exact List.append_cancel_left hflat
  have hiff : ArrivesWell h body sock ↔ Supported h ∧ OnceBefore (h ++ p) p ∧
      BodyTaken sock'.alloc ((parseOptions h .empty).get (str "content-length")) p body
        sock'.chunks := by
    rw [hrest, halloc']
    constructor
    · rintro ⟨h₁, h₂, h₃⟩
      rw [hdrop] at h₂ h₃
      exact ⟨h₁, hp ▸ h₂, h₃⟩
    · rintro ⟨h₁, h₂, h₃⟩
      exact ⟨h₁, by rwa [hdrop, ← hp], by rwa [hdrop]⟩
  rw [← hp] at hread
  rw [hiff]
  by_cases honce : OnceBefore (h ++ p) p
  · obtain ⟨request, hline⟩ : ∃ r, parseRequestLine { header := h, postData := p } = r := ⟨_, rfl⟩
    have hheader : request.header = h := hline ▸ parseRequestLine_header _
    have hdata : request.postData = p := hline ▸ parseRequestLine_postData _
    have hoptions : request.options = .empty := hline ▸ parseRequestLine_options _
    have hmethod : Supported h ↔ httpMethods (upper request.method) = some true := by
      rw [Supported, ← parseRequestLine_method h p, hline]
    rw [parseHttpRequest_split hread (splitHeader_once hh honce) hline, hmethod]
    rcases httpMethods (upper request.method) with _ | _ | _
    · simp
    · simp
    · have hwhole := readBody_whole_iff (s := { WikiEngine.new sortByDate sock disk with
        socket := sock'
        request := parseHeaderFields request }) (hdata.symm ▸ hbody : request.postData ++ _ = body)
      simp only [parseHeaderFields, hheader, hdata, hoptions] at hwhole
      simpa [honce, parseHeaderFields, hheader, hdata, hoptions] using hwhole
  · obtain ⟨header, data, hsplit, hne⟩ := splitHeader_again hh honce
    refine iff_of_false ?_ fun hwell => honce hwell.2.1
    rintro ⟨s', hrun, hheader, _⟩
    rw [parseHttpRequest_split hread hsplit rfl] at hrun
    split at hrun
    · cases hrun
    · cases hrun
    · have hkeep := readBody_header hrun
      rw [hheader] at hkeep
      exact hne (hkeep.trans (parseRequestLine_header _)).symm

/-- A form of two bytes that comes in a chunk of its own. -/
theorem parseHttpRequest_whole_post :
    let h := str "POST / HTTP/1.1\r\nContent-Length: 2\r\n\r\n"
    let sock : Socket := ⟨[h, str "ab"], by decide, fun n => some n.floor.toNat⟩
    ∃ s', parseHttpRequest (WikiEngine.new .insertion sock .empty) = (.ok true, s') ∧
      s'.request.header = h ∧ s'.request.postData = str "ab" := by
  intro h sock
  have hh : HeaderBlock h := ⟨by decide, by decide⟩
  refine (parseHttpRequest_whole_iff .insertion .empty hh (by decide)
    (by decide)).mpr ⟨by decide, by decide, ?_⟩
  have hlen : (parseOptions h .empty).get (str "content-length") = some (str "2") := by
    decide
  rw [hlen]
  refine (bodyTaken_iff ⟨by decide, by decide, by decide⟩ ?_
    (by decide) (by decide)).mpr (by decide)
  intro n
  have hfloor : ((n : Rat)).floor = n := Rat.floor_intCast n
  simp [sock, hfloor]

/-- The same form in two chunks: the server takes the first byte for the whole body. -/
theorem parseHttpRequest_loses_chunk :
    let h := str "POST / HTTP/1.1\r\nContent-Length: 2\r\n\r\n"
    let sock : Socket :=
      ⟨[h, str "a", str "b"], by decide, fun n => some n.floor.toNat⟩
    HeaderBlock h ∧ (parseOptions h .empty).get (str "content-length") = some (str "2") ∧
      sock.stream = h ++ str "ab" ∧
      ¬ ∃ s', parseHttpRequest (WikiEngine.new .insertion sock .empty) = (.ok true, s') ∧
        s'.request.header = h ∧ s'.request.postData = str "ab" := by
  intro h sock
  refine ⟨⟨by decide, by decide⟩, by decide, by decide, ?_⟩
  rintro ⟨s', hrun, _, hdata⟩
  have hpost : (parseHttpRequest (WikiEngine.new .insertion sock .empty)).2.request.postData =
      str "a" := by decide +kernel
  rw [hrun, hdata] at hpost
  exact absurd hpost (by decide)

end MoonWiki
