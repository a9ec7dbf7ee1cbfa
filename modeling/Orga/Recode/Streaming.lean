import Orga.Lib.Decoder
import Orga.Recode.RoundTrip

/-! The buffered loop on UTF-16 and UTF-32 input. There `read_codepoint` never looks beyond
the bytes it was promised, so it is a decoder in the sense of `Orga.Decoding`, and the pieces
in which the input arrives do not matter. -/
namespace Orga.Recode
open Orga.Decoding

def Encoding.wide : Encoding → Bool
  | .utf16be | .utf16le | .utf32be | .utf32le => true
  | .utf8 | .unknown => false

section Wide
variable {enc : Encoding} {buf : List UInt8} {n : ℕ}

/-- The size of a code point, as the decoder takes it from its first unit. -/
def wideLength (enc : Encoding) (b0 b1 : UInt8) : ℕ :=
  if enc = .utf16be ∧ b0 >>> 2 ≠ 0x36 ∨ enc = .utf16le ∧ b1 >>> 2 ≠ 0x36 then 2 else 4

theorem wideLength_cases (enc : Encoding) (b0 b1 : UInt8) :
    wideLength enc b0 b1 = 2 ∨ wideLength enc b0 b1 = 4 := by
  unfold wideLength
  split_ifs
  · exact Or.inl rfl
  · exact Or.inr rfl

theorem exists_two (hbuf : 2 ≤ buf.length) : ∃ b0 b1 rest, buf = b0 :: b1 :: rest := by
  match buf, hbuf with
  | b0 :: b1 :: rest, _ => exact ⟨b0, b1, rest, rfl⟩
  | [_], hbuf => simp at hbuf
  | [], hbuf => simp at hbuf

theorem read_whole (hw : enc.wide = true) (b0 b1 : UInt8) {rest : List UInt8}
    (hlen : wideLength enc b0 b1 ≤ rest.length + 2) :
    ∃ cp, ∀ n, wideLength enc b0 b1 ≤ n →
      readCodepoint enc (b0 :: b1 :: rest) n = some (cp, wideLength enc b0 b1) := by
  by_cases hunit : enc = .utf16be ∧ b0 >>> 2 ≠ 0x36 ∨ enc = .utf16le ∧ b1 >>> 2 ≠ 0x36
  · rw [show wideLength enc b0 b1 = 2 from if_pos hunit]
    rcases hunit with ⟨rfl, h0⟩ | ⟨rfl, h1⟩
    · exact ⟨_, fun n hn => read_utf16be hn h0⟩
    · exact ⟨_, fun n hn => read_utf16le hn h1⟩
  · rw [show wideLength enc b0 b1 = 4 from if_neg hunit] at hlen ⊢
    obtain ⟨b2, b3, rest, rfl⟩ := exists_two (show 2 ≤ rest.length by omega)
    cases enc with
    | utf8 => simp [Encoding.wide] at hw
    | unknown => simp [Encoding.wide] at hw
    | utf32be => exact ⟨_, fun n hn => read_utf32be hn⟩
    | utf32le => exact ⟨_, fun n hn => read_utf32le hn⟩
    | utf16be => exact ⟨_, fun n hn => read_utf16be_pair hn (by simpa using hunit)⟩
    | utf16le => exact ⟨_, fun n hn => read_utf16le_pair hn (by simpa using hunit)⟩

theorem read_few (hw : enc.wide = true) (hn : n < 2) : readCodepoint enc buf n = some (0, 0) := by
  have h2 : ¬ 2 ≤ n := by omega
  have h4 : ¬ 4 ≤ n := by omega
  cases enc <;> simp [Encoding.wide] at hw <;> simp [readCodepoint, h2, h4]

theorem read_cut (hw : enc.wide = true) {b0 b1 : UInt8} {rest : List UInt8}
    (hn : n < wideLength enc b0 b1) : readCodepoint enc (b0 :: b1 :: rest) n = some (0, 0) := by
  by_cases h2 : 2 ≤ n
  · have hsize := wideLength_cases enc b0 b1
    have h4 : ¬ 4 ≤ n := by omega
    unfold wideLength at hn
    split_ifs at hn with hunit
    · omega
    · cases enc <;> simp [Encoding.wide] at hw <;> simp at hunit <;>
        simp [readCodepoint, h2, h4, hunit]
  · exact read_few hw (by omega)

theorem read_cases (hw : enc.wide = true) (hn : n ≤ buf.length) :
    (n < 4 ∧ readCodepoint enc buf n = some (0, 0)) ∨
      ∃ cp k, (k = 2 ∨ k = 4) ∧ k ≤ n ∧
        ∀ m, k ≤ m → readCodepoint enc buf m = some (cp, k) := by
  by_cases h2 : 2 ≤ n
  · obtain ⟨b0, b1, rest, rfl⟩ := exists_two (show 2 ≤ buf.length by omega)
    have hsize := wideLength_cases enc b0 b1
    rw [List.length_cons, List.length_cons] at hn
    by_cases hcut : n < wideLength enc b0 b1
    · exact Or.inl ⟨by omega, read_cut hw hcut⟩
    · have hlen : wideLength enc b0 b1 ≤ rest.length + 2 := by omega
      obtain ⟨cp, hread⟩ := read_whole hw b0 b1 hlen
      exact Or.inr ⟨cp, _, hsize, by omega, hread⟩
  · exact Or.inl ⟨by omega, read_few hw (by omega)⟩

/-- Four bytes are always enough, and fewer than two never are. -/
theorem read_wide (hw : enc.wide = true) (hn : n ≤ buf.length) :
    ∃ cp k, readCodepoint enc buf n = some (cp, k) ∧ k ≤ n ∧ (k = 0 ∨ 2 ≤ k) ∧
      (4 ≤ n → k ≠ 0) := by
  rcases read_cases hw hn with ⟨hfew, hread⟩ | ⟨cp, k, hsize, hle, hread⟩
  · exact ⟨0, 0, hread, by omega, by omega, by omega⟩
  · exact ⟨cp, k, hread n hle, hle, by omega, by omega⟩

theorem read_take (hw : enc.wide = true) : readCodepoint enc (buf.take n) n =
    readCodepoint enc buf n := by
  by_cases h2 : 2 ≤ n
  · have h0 : (buf.take n)[0]? = buf[0]? := by rw [List.getElem?_take_of_lt (by omega)]
    have h1 : (buf.take n)[1]? = buf[1]? := by rw [List.getElem?_take_of_lt (by omega)]
    by_cases h4 : 4 ≤ n
    · have h2' : (buf.take n)[2]? = buf[2]? := by rw [List.getElem?_take_of_lt (by omega)]
      have h3 : (buf.take n)[3]? = buf[3]? := by rw [List.getElem?_take_of_lt (by omega)]
      cases enc <;> simp [Encoding.wide] at hw <;> simp only [readCodepoint, h0, h1, h2', h3]
    · cases enc <;> simp [Encoding.wide] at hw <;> simp [readCodepoint, h0, h1, h2, h4]
  · rw [read_few hw (by omega), read_few hw (by omega)]

theorem read_mono (hw : enc.wide = true) {m k : ℕ} {cp : UInt32} (hk : 0 < k) (hnm : n ≤ m)
    (hn : n ≤ buf.length) (h : readCodepoint enc buf n = some (cp, k)) :
    readCodepoint enc buf m = some (cp, k) := by
  rcases read_cases hw hn with ⟨-, hread⟩ | ⟨cp', k', -, hle, hread⟩
  · cases h.symm.trans hread
    omega
  · rw [← h, hread n hle, hread m (by omega)]

end Wide

def nextCodepoint (enc : Encoding) (buf : List UInt8) : Option (UInt32 × ℕ) :=
  (readCodepoint enc buf buf.length).filter fun r => r.2 != 0

theorem nextCodepoint_eq_some {enc : Encoding} {buf : List UInt8} {cp : UInt32} {k : ℕ} :
    nextCodepoint enc buf = some (cp, k) ↔
      readCodepoint enc buf buf.length = some (cp, k) ∧ 0 < k := by
  simp [nextCodepoint, Option.filter_eq_some_iff, Nat.pos_iff_ne_zero]

def wideDecoder (enc : Encoding) (hw : enc.wide = true) : Decoder UInt8 UInt32 where
  next := nextCodepoint enc
  progress h := by
    obtain ⟨hread, hpos⟩ := nextCodepoint_eq_some.mp h
    obtain ⟨cp, k, hread', hle, -⟩ := read_wide hw (le_refl _)
    cases hread.symm.trans hread'
    exact ⟨hpos, hle⟩
  stable {buf x k} more h := by
    obtain ⟨hread, hpos⟩ := nextCodepoint_eq_some.mp h
    refine nextCodepoint_eq_some.mpr ⟨read_mono hw hpos (n := buf.length) (by simp) (by simp) ?_,
      hpos⟩
    rw [← read_take hw, List.take_left, hread]

section Decoder
variable {enc : Encoding} (hw : enc.wide = true)
include hw

theorem wide_ne_unknown : enc ≠ .unknown := by
  rintro rfl
  simp [Encoding.wide] at hw

theorem length_rest_lt (buf : List UInt8) : ((wideDecoder enc hw).run buf).2.length < 4 := by
  by_contra hlen
  have hnone : nextCodepoint enc ((wideDecoder enc hw).run buf).2 = none :=
    Decoder.next_rest (d := wideDecoder enc hw) buf
  obtain ⟨cp, k, hread, -, -, hk⟩ := read_wide hw (le_refl ((wideDecoder enc hw).run buf).2.length)
  have hsome := nextCodepoint_eq_some.mpr ⟨hread, Nat.pos_of_ne_zero (hk (by omega))⟩
  rw [hnone] at hsome
  exact absurd hsome (by simp)

theorem length_run_le (buf : List UInt8) :
    2 * ((wideDecoder enc hw).run buf).1.length + ((wideDecoder enc hw).run buf).2.length ≤
      buf.length := by
  refine Decoder.length_run_le (fun buf x k h => ?_) buf
  obtain ⟨hread, hpos⟩ := nextCodepoint_eq_some.mp h
  obtain ⟨cp, k', hread', -, hk, -⟩ := read_wide hw (le_refl buf.length)
  cases hread.symm.trans hread'
  omega

/-- `orig_to_ucs4` runs the decoder on the first `n` bytes when `destbuf` is large enough. -/
theorem origToUcs4_wide (buf : List UInt8) (n room : ℕ) (hn : n ≤ buf.length)
    (hroom : n < 2 * room) :
    origToUcs4 enc buf n room = some (((wideDecoder enc hw).run (buf.take n)).1,
      ((wideDecoder enc hw).run (buf.take n)).2.length) := by
  induction room generalizing buf n with
  | zero => omega
  | succ room ih =>
    obtain ⟨cp, k, hread, hle, hk, -⟩ := read_wide hw hn
    have hlen : (buf.take n).length = n := by rw [List.length_take]; omega
    have hfull : readCodepoint enc (buf.take n) (buf.take n).length = some (cp, k) := by
      rw [hlen, read_take hw, hread]
    rw [origToUcs4, hread]
    simp only [Option.bind_eq_bind, Option.bind_some]
    by_cases hpos : 0 < k
    · have hnext : (wideDecoder enc hw).next (buf.take n) = some (cp, k) :=
        nextCodepoint_eq_some.mpr ⟨hfull, hpos⟩
      rw [if_pos hpos, sizeSub_of_le hle, Decoder.run_some hnext,
        ih (buf.drop k) (n - k) (by rw [List.length_drop]; omega) (by omega), List.drop_take]
      rfl
    · have hnext : (wideDecoder enc hw).next (buf.take n) = none := by
        refine Option.eq_none_iff_forall_ne_some.mpr fun r hr => ?_
        obtain ⟨hread', hpos'⟩ := nextCodepoint_eq_some.mp hr
        cases hfull.symm.trans hread'
        exact hpos hpos'
      rw [if_neg hpos, Decoder.run_none hnext, hlen]
      rfl

end Decoder

section Buffer
variable {inbuf data : List UInt8} {i n left : ℕ}

theorem store_length (h : i + data.length ≤ inbuf.length) :
    (store inbuf i data).length = inbuf.length := by
  simp only [store, List.length_append, List.length_take, List.length_drop]
  omega

theorem store_take (inbuf data : List UInt8) (h : i ≤ inbuf.length) :
    (store inbuf i data).take (data.length + i) = inbuf.take i ++ data := by
  have hlen : (inbuf.take i ++ data).length = data.length + i := by
    rw [List.length_append, List.length_take]
    omega
  rw [store, ← hlen, List.take_left]

theorem compact_length (hn : n ≤ inbuf.length) (hleft : left ≤ n) :
    (compact inbuf n left).length = inbuf.length := by
  unfold compact
  split_ifs
  · apply store_length
    rw [List.length_take, List.length_drop]
    omega
  · rfl

theorem compact_take (hn : n ≤ inbuf.length) (hleft : left ≤ n) :
    (compact inbuf n left).take left = (inbuf.take n).drop (n - left) := by
  have hlen : ((inbuf.drop (n - left)).take left).length = left := by
    rw [List.length_take, List.length_drop]
    omega
  have hdrop : (inbuf.drop (n - left)).take left = (inbuf.take n).drop (n - left) := by
    rw [List.drop_take, show n - (n - left) = left by omega]
  unfold compact
  split_ifs with hpos
  · have h := store_take inbuf ((inbuf.drop (n - left)).take left) (Nat.zero_le inbuf.length)
    rw [hlen, Nat.add_zero, List.take_zero, List.nil_append] at h
    rw [h, hdrop]
  · rw [← hdrop, show left = 0 by omega, List.take_zero, List.take_zero]

end Buffer

section Loop
variable {orig dest : Encoding} {wishes : ℕ → ℕ} {inbuf bom stdin : List UInt8} {prev : ℕ}

@[simp] theorem mainLoop_nil : mainLoop orig dest wishes inbuf prev bom [] = some [] := by
  rw [mainLoop]
  simp [read]

theorem read_piece (wish count : ℕ) (hcount : 0 < count) (hstdin : stdin ≠ []) :
    ∃ piece rest, read wish count stdin = (piece, rest) ∧ stdin = piece ++ rest ∧
      0 < piece.length ∧ piece.length ≤ count := by
  have hpos := List.length_pos_of_ne_nil hstdin
  refine ⟨stdin.take (min count (Max.max 1 wish)), stdin.drop (min count (Max.max 1 wish)), ?_,
    (List.take_append_drop _ _).symm, ?_, ?_⟩
  · rw [read, List.splitAt_eq]
  · rw [List.length_take]
    omega
  · rw [List.length_take]
    omega

/-- One iteration of the loop, whatever the piece. -/
theorem mainLoop_step {piece rest : List UInt8}
    (hread : read (wishes 0) (sizeSub INBUF_SIZE prev) stdin = (piece, rest))
    (hpos : 0 < piece.length) :
    mainLoop orig dest wishes inbuf prev bom stdin = do
      let (points, left) ← origToUcs4 orig (store inbuf prev piece) (piece.length + prev) UCS4_SIZE
      if bom.length + (ucs4ToDest dest points).length > OUTBUF_SIZE then
        none
      else
        let written ← mainLoop orig dest (fun i => wishes (i + 1))
          (compact (store inbuf prev piece) (piece.length + prev) left) left [] rest
        return bom ++ ucs4ToDest dest points ++ written := by
  rw [mainLoop]
  simp only [hread]
  rw [dif_pos hpos]

/-- However the reads cut the input, the loop writes what one run of the decoder gives. -/
theorem mainLoop_wide (hw : orig.wide = true) (hinbuf : inbuf.length = INBUF_SIZE)
    (hprev : prev < 4) (hbom : bom.length ≤ 4) (hstdin : stdin ≠ []) :
    mainLoop orig dest wishes inbuf prev bom stdin =
      some (bom ++ ucs4ToDest dest ((wideDecoder orig hw).run (inbuf.take prev ++ stdin)).1) := by
  have h1024 : INBUF_SIZE = 1024 := rfl
  induction hn : stdin.length using Nat.strongRecOn generalizing stdin inbuf prev bom wishes with
  | ind n ih =>
    obtain ⟨piece, rest, hread, rfl, hpos, hle⟩ := read_piece (wishes 0) (sizeSub INBUF_SIZE prev)
      (by rw [sizeSub_of_le (by omega)]; omega) hstdin
    rw [sizeSub_of_le (by omega)] at hle
    set d := wideDecoder orig hw
    -- the buffer of this iteration: what was left over and the new piece
    let buf := store inbuf prev piece
    have hbuf : buf.length = INBUF_SIZE := by rw [store_length (by omega), hinbuf]
    have htake : buf.take (piece.length + prev) = inbuf.take prev ++ piece :=
      store_take inbuf piece (by omega)
    have hdec := origToUcs4_wide hw buf (piece.length + prev) UCS4_SIZE (by omega)
      (by show _ < 2 * 1024; omega)
    rw [htake] at hdec
    have hcount := length_run_le hw (inbuf.take prev ++ piece)
    have hshort := length_rest_lt hw (inbuf.take prev ++ piece)
    have hsuffix := Decoder.rest_suffix (d := d) (inbuf.take prev ++ piece)
    have hcat : (inbuf.take prev ++ piece).length = piece.length + prev := by
      rw [List.length_append, List.length_take]
      omega
    change 2 * (d.run _).1.length + _ ≤ _ at hcount
    change (d.run _).2.length < 4 at hshort
    generalize hrun : d.run (inbuf.take prev ++ piece) = r at hdec hcount hshort hsuffix
    obtain ⟨points, left⟩ := r
    dsimp only at hdec hcount hshort hsuffix
    have hout := ucs4ToDest_length_le dest points
    have hleft : (compact buf (piece.length + prev) left.length).take left.length = left := by
      rw [compact_take (by omega) (by omega), htake, ← hcat]
      exact (List.suffix_iff_eq_drop.mp hsuffix).symm
    have hwhole : d.run (inbuf.take prev ++ (piece ++ rest)) =
        (points ++ (d.run (left ++ rest)).1, (d.run (left ++ rest)).2) := by
      rw [← List.append_assoc, Decoder.run_append, hrun]
    rw [mainLoop_step hread hpos, hdec, hwhole]
    simp only [Option.bind_eq_bind, Option.bind_some]
    rw [if_neg (by show ¬ _ > 1024 * 4 + 4; omega)]
    by_cases hrest : rest = []
    · subst hrest
      have hstuck : d.run left = ([], left) := by
        apply Decoder.run_none
        have h := Decoder.next_rest (d := d) (inbuf.take prev ++ piece)
        rw [hrun] at h
        exact h
      simp [hstuck]
    · have hnext : mainLoop orig dest (fun i => wishes (i + 1))
          (compact buf (piece.length + prev) left.length) left.length [] rest = _ :=
        ih rest.length (by rw [← hn, List.length_append]; omega)
          (by rw [compact_length (by omega) (by omega), hbuf]) hshort (by simp) hrest rfl
      rw [hleft] at hnext
      rw [hnext]
      simp [ucs4ToDest_append]

end Loop

/-- The array `bom` of `main` after the first read. -/
def firstBytes (wishes : ℕ → ℕ) (u : Uninitialised) (stdin : List UInt8) : List UInt8 :=
  store ((List.range 4).map u.bom) 0 (read (wishes 0) 4 stdin).1

/-- `bom_to_encoding` finds the encoding `orig`. -/
def Detects (wishes : ℕ → ℕ) (u : Uninitialised) (stdin : List UInt8) (orig : Encoding) : Prop :=
  ∃ b0 b1 b2 b3, firstBytes wishes u stdin = [b0, b1, b2, b3] ∧ bomToEncoding b0 b1 b2 b3 = orig

/-- `inbuf` and `prevbytes` before the loop. -/
def firstBuffer (orig : Encoding) (u : Uninitialised) (bom : List UInt8) : List UInt8 × ℕ :=
  let inbuf := (List.range INBUF_SIZE).map u.inbuf
  if orig = .utf8 then (store inbuf 0 bom, 4)
  else if orig = .utf16be ∨ orig = .utf16le then (store inbuf 0 (bom.drop 2), 2)
  else (inbuf, 0)

/-- The bytes of the text that the first read put in `bom`. -/
def carried (orig : Encoding) (bom : List UInt8) : List UInt8 :=
  if orig = .utf8 then bom
  else if orig = .utf16be ∨ orig = .utf16le then bom.drop 2
  else []

section Main
variable {prog enc : String} {wishes : ℕ → ℕ} {u : Uninitialised} {b0 b1 b2 b3 : UInt8}
  {stream : List UInt8}

theorem writeBom_length_le (enc : Encoding) : (writeBom enc).length ≤ 4 := by
  unfold writeBom
  split_ifs <;> simp

theorem store_start {inbuf data : List UInt8} (hlen : inbuf.length = INBUF_SIZE)
    (hdata : data.length ≤ INBUF_SIZE) :
    (store inbuf 0 data).length = INBUF_SIZE ∧ (store inbuf 0 data).take data.length = data := by
  have htake := store_take inbuf data (Nat.zero_le _)
  rw [Nat.add_zero, List.take_zero, List.nil_append] at htake
  exact ⟨by rw [store_length (by omega), hlen], htake⟩

theorem firstBytes_length (wishes : ℕ → ℕ) (u : Uninitialised) (stdin : List UInt8) :
    (firstBytes wishes u stdin).length = 4 := by
  have hlen : (read (wishes 0) 4 stdin).1.length ≤ 4 := by
    rw [read, List.splitAt_eq, List.length_take]
    omega
  rw [firstBytes, store_length]
  · simp
  · rw [List.length_map, List.length_range]
    omega

theorem exists_detects (wishes : ℕ → ℕ) (u : Uninitialised) (stdin : List UInt8) :
    ∃ orig, Detects wishes u stdin orig := by
  obtain ⟨b0, b1, b2, b3, hfirst⟩ := List.length_eq_four.mp (firstBytes_length wishes u stdin)
  exact ⟨_, b0, b1, b2, b3, hfirst, rfl⟩

theorem firstBuffer_carried (orig : Encoding) (u : Uninitialised) {bom : List UInt8}
    (hbom : bom.length = 4) :
    (firstBuffer orig u bom).1.length = INBUF_SIZE ∧
      (firstBuffer orig u bom).1.take (carried orig bom).length = carried orig bom ∧
      (firstBuffer orig u bom).2 = (carried orig bom).length := by
  have h1024 : INBUF_SIZE = 1024 := rfl
  unfold firstBuffer carried
  generalize hinbuf : (List.range INBUF_SIZE).map u.inbuf = inbuf
  have hlen : inbuf.length = INBUF_SIZE := by simp [← hinbuf]
  have hfour := store_start hlen (show bom.length ≤ INBUF_SIZE by omega)
  have htwo := store_start hlen (show (bom.drop 2).length ≤ INBUF_SIZE by
    rw [List.length_drop]; omega)
  split_ifs
  · exact ⟨hfour.1, hfour.2, hbom.symm⟩
  · exact ⟨htwo.1, htwo.2, by rw [List.length_drop, hbom]⟩
  · exact ⟨hlen, List.take_zero, rfl⟩

theorem main_detects {stdin : List UInt8} (hdest : strToEncoding enc ≠ .unknown)
    (hfirst : firstBytes wishes u stdin = [b0, b1, b2, b3]) (prog : String) :
    main [prog, enc] wishes u stdin =
      (mainLoop (bomToEncoding b0 b1 b2 b3) (strToEncoding enc) (fun i => wishes (i + 1))
        (firstBuffer (bomToEncoding b0 b1 b2 b3) u (firstBytes wishes u stdin)).1
        (firstBuffer (bomToEncoding b0 b1 b2 b3) u (firstBytes wishes u stdin)).2
        (writeBom (strToEncoding enc)) (read (wishes 0) 4 stdin).2).map
          fun written => (0, written) := by
  have hstore : store ((List.range 4).map u.bom) 0 (read (wishes 0) 4 stdin).1 =
      [b0, b1, b2, b3] := hfirst
  rw [hfirst, Option.map_eq_bind]
  unfold main firstBuffer
  simp only [hdest, if_false, hstore]
  rfl

theorem main_eq (prog : String) (u : Uninitialised) (b0 b1 b2 b3 : UInt8) (stream : List UInt8)
    (hdest : strToEncoding enc ≠ .unknown) (hfirst : 4 ≤ wishes 0) :
    ∃ inbuf, inbuf.length = INBUF_SIZE ∧
      inbuf.take (carried (bomToEncoding b0 b1 b2 b3) [b0, b1, b2, b3]).length =
        carried (bomToEncoding b0 b1 b2 b3) [b0, b1, b2, b3] ∧
      main [prog, enc] wishes u (b0 :: b1 :: b2 :: b3 :: stream) =
        (mainLoop (bomToEncoding b0 b1 b2 b3) (strToEncoding enc) (fun i => wishes (i + 1)) inbuf
          (carried (bomToEncoding b0 b1 b2 b3) [b0, b1, b2, b3]).length
          (writeBom (strToEncoding enc)) stream).map fun written => (0, written) := by
  have hread : read (wishes 0) 4 (b0 :: b1 :: b2 :: b3 :: stream) =
      ([b0, b1, b2, b3], stream) := by
    rw [read, show min 4 (Max.max 1 (wishes 0)) = 4 by omega, List.splitAt_eq]
    rfl
  have hbytes : firstBytes wishes u (b0 :: b1 :: b2 :: b3 :: stream) = [b0, b1, b2, b3] := by
    rw [firstBytes, hread]
    rfl
  have hmain := main_detects hdest hbytes prog
  rw [hbytes, hread] at hmain
  obtain ⟨hlen, htake, hcount⟩ := firstBuffer_carried (bomToEncoding b0 b1 b2 b3) u
    (show [b0, b1, b2, b3].length = 4 from rfl)
  refine ⟨_, hlen, htake, ?_⟩
  rw [← hcount]
  exact hmain

/-- A single `orig_to_ucs4` over the whole text, in one buffer of any sufficient size. -/
def DecodesTo (orig : Encoding) (text : List UInt8) (points : List UInt32) : Prop :=
  ∃ left, ∀ room, text.length < room →
    origToUcs4 orig text text.length room = some (points, left)

theorem decodesTo_run {orig : Encoding} (hw : orig.wide = true) (text : List UInt8) :
    DecodesTo orig text ((wideDecoder orig hw).run text).1 := by
  refine ⟨((wideDecoder orig hw).run text).2.length, fun room hroom => ?_⟩
  have h := origToUcs4_wide hw text text.length room le_rfl (by omega)
  rw [List.take_length] at h
  exact h

theorem carried_length_lt {orig : Encoding} (hw : orig.wide = true) :
    (carried orig [b0, b1, b2, b3]).length < 4 := by
  cases orig <;> simp [Encoding.wide] at hw <;> simp [carried]

/-- On UTF-16 and UTF-32 input, cutting the stream into reads does not change the output. -/
theorem main_stream (hdest : strToEncoding enc ≠ .unknown)
    (hw : (bomToEncoding b0 b1 b2 b3).wide = true) (hstream : stream ≠ [])
    (hfirst : 4 ≤ wishes 0) :
    ∃ points, DecodesTo (bomToEncoding b0 b1 b2 b3)
        ((if bomToEncoding b0 b1 b2 b3 = .utf16be ∨ bomToEncoding b0 b1 b2 b3 = .utf16le then
          [b2, b3] else []) ++ stream) points ∧
      main [prog, enc] wishes u (b0 :: b1 :: b2 :: b3 :: stream) =
        some (0, writeBom (strToEncoding enc) ++ ucs4ToDest (strToEncoding enc) points) := by
  obtain ⟨inbuf, hlen, htake, hmain⟩ := main_eq prog u b0 b1 b2 b3 stream hdest hfirst
  set orig := bomToEncoding b0 b1 b2 b3
  have hcarried : carried orig [b0, b1, b2, b3] =
      if orig = .utf16be ∨ orig = .utf16le then [b2, b3] else [] := by
    unfold carried
    rw [if_neg (by rintro h; rw [h] at hw; simp [Encoding.wide] at hw)]
    rfl
  refine ⟨_, decodesTo_run hw _, ?_⟩
  rw [hmain, mainLoop_wide hw hlen (carried_length_lt hw) (writeBom_length_le _) hstream, htake,
    hcarried]
  rfl

end Main

/-- A surrogate pair of which the first read takes one half and a later read one byte more. -/
theorem main_stream_surrogates :
    ∃ points, DecodesTo (bomToEncoding 0xFE 0xFF 0xD8 0x3D)
        ((if bomToEncoding 0xFE 0xFF 0xD8 0x3D = .utf16be ∨
          bomToEncoding 0xFE 0xFF 0xD8 0x3D = .utf16le then [0xD8, 0x3D] else []) ++ [0xDE, 0x00])
        points ∧
      main ["recode57", "UTF-8"] (fun i => if i = 0 then 4 else 1) ⟨fun _ => 0, fun _ => 0⟩
          [0xFE, 0xFF, 0xD8, 0x3D, 0xDE, 0x00] =
        some (0, writeBom (strToEncoding "UTF-8") ++ ucs4ToDest (strToEncoding "UTF-8") points) :=
  main_stream (by decide) (by decide) (by decide) (by decide)

end Orga.Recode
