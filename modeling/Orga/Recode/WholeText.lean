import Orga.Recode.Marks

/-! Which texts survive `recode57` when every read is full. The loop converts nothing when the
input ends with the first four bytes, and on UTF-8 input it neither carries a cut sequence over
nor has room in `ucs4` for the store after 1024 code points. -/
namespace Orga.Recode
open Orga.Decoding

/-- The size of a UTF-8 sequence, as the decoder takes it from the first byte. -/
def utf8Length (b0 : UInt8) : ℕ :=
  if b0 < 0x80 then 1 else if b0 < 0xE0 then 2 else if b0 < 0xF0 then 3 else 4

section Utf8
variable {b0 : UInt8} {tail : List UInt8} {n : ℕ}

theorem read_utf8_short (hn : 0 < n) (h : tail.length + 1 < utf8Length b0) :
    readCodepoint .utf8 (b0 :: tail) n = none := by
  unfold utf8Length at h
  split_ifs at h with h1 h2 h3
  · omega
  · have htail : tail = [] := List.length_eq_zero_iff.mp (by omega)
    simp [readCodepoint, hn, h1, htail]
  · rcases tail with _ | ⟨b1, _ | ⟨b2, tail⟩⟩
    · simp [readCodepoint, hn, h1]
    · simp [readCodepoint, hn, h1, h2]
    · simp only [List.length_cons] at h
      omega
  · rcases tail with _ | ⟨b1, _ | ⟨b2, _ | ⟨b3, tail⟩⟩⟩
    · simp [readCodepoint, hn, h1]
    · simp [readCodepoint, hn, h1, h2]
    · simp [readCodepoint, hn, h1, h2, h3]
    · simp only [List.length_cons] at h
      omega

theorem utf8Length_of_read (hn : 0 < n) {cp : UInt32} {k : ℕ}
    (h : readCodepoint .utf8 (b0 :: tail) n = some (cp, k)) : k = utf8Length b0 := by
  unfold utf8Length
  split_ifs with h1 h2 h3
  · simp [readCodepoint, hn, h1] at h
    omega
  · rcases ht : tail[0]? with _ | b1
    · simp [readCodepoint, hn, h1, ht] at h
    · simp [readCodepoint, hn, h1, h2, ht] at h
      omega
  · rcases ht : tail[0]? with _ | b1
    · simp [readCodepoint, hn, h1, ht] at h
    rcases ht' : tail[1]? with _ | b2
    · simp [readCodepoint, hn, h1, h2, ht, ht'] at h
    · simp [readCodepoint, hn, h1, h2, h3, ht, ht'] at h
      omega
  · rcases ht : tail[0]? with _ | b1
    · simp [readCodepoint, hn, h1, ht] at h
    rcases ht' : tail[1]? with _ | b2
    · simp [readCodepoint, hn, h1, h2, ht, ht'] at h
    rcases ht'' : tail[2]? with _ | b3
    · simp [readCodepoint, hn, h1, h2, h3, ht, ht', ht''] at h
    · simp [readCodepoint, hn, h1, h2, h3, ht, ht', ht''] at h
      omega

/-- A sequence cut by the end of the array is read beyond it. -/
theorem read_utf8_cut {cp : UInt32} (hcp : Scalar cp) {p q : List UInt8}
    (hcut : writeCodepoint .utf8 cp = p ++ q) (hp : p ≠ []) (hq : q ≠ []) (hn : 0 < n) :
    readCodepoint .utf8 p n = none := by
  obtain ⟨b0, tail, rfl⟩ := List.exists_cons_of_ne_nil hp
  have hread := readCodepoint_writeCodepoint (n := (writeCodepoint .utf8 cp).length) [] (by decide)
    hcp le_rfl
  have hpos := writeCodepoint_length_pos (show Encoding.utf8 ≠ .unknown by decide) cp
  rw [List.append_nil, hcut] at hread
  rw [hcut] at hpos
  have hlen := utf8Length_of_read hpos hread
  have hq' := List.length_pos_of_ne_nil hq
  apply read_utf8_short hn
  simp only [List.cons_append, List.length_cons, List.length_append] at hlen
  omega

end Utf8

/-- Cutting the text every 1024 bytes never falls inside a sequence, and no block of 1024
bytes holds 1024 code points. `used` bytes and `count` code points of the block are taken. -/
def cutsClean : ℕ → ℕ → List UInt32 → Bool
  | _, _, [] => true
  | used, count, cp :: points =>
    let used' := used + (writeCodepoint .utf8 cp).length
    if used' < 1024 then cutsClean used' (count + 1) points
    else decide (used' = 1024 ∧ count + 1 < 1024) && cutsClean 0 0 points

section Cuts
variable {used count : ℕ} {points : List UInt32}

theorem cutsClean_of_lt (h : used + (ucs4ToDest .utf8 points).length < 1024) :
    cutsClean used count points = true := by
  induction points generalizing used count with
  | nil => rfl
  | cons cp points ih =>
    rw [ucs4ToDest, List.length_append, ← Nat.add_assoc] at h
    rw [cutsClean, if_pos (by omega)]
    exact ih h

theorem cutsClean_cases (used count : ℕ) (points : List UInt32) (hused : used < 1024)
    (h : 1024 ≤ used + (ucs4ToDest .utf8 points).length) :
    (∃ pre post, points = pre ++ post ∧ used + (ucs4ToDest .utf8 pre).length = 1024 ∧
      cutsClean used count points =
        (decide (count + pre.length < 1024) && cutsClean 0 0 post)) ∨
    ∃ pre cp post, points = pre ++ cp :: post ∧ used + (ucs4ToDest .utf8 pre).length < 1024 ∧
      1024 < used + (ucs4ToDest .utf8 pre).length + (writeCodepoint .utf8 cp).length ∧
      cutsClean used count points = false := by
  induction points generalizing used count with
  | nil => simp [ucs4ToDest] at h; omega
  | cons cp points ih =>
    rw [ucs4ToDest, List.length_append, ← Nat.add_assoc] at h
    rw [cutsClean]
    rcases Nat.lt_trichotomy (used + (writeCodepoint .utf8 cp).length) 1024 with hlt | heq | hgt
    · rw [if_pos hlt]
      rcases ih _ (count + 1) hlt h with
        ⟨pre, post, rfl, hpre, hclean⟩ | ⟨pre, c, post, rfl, hpre, hc, hclean⟩
      · refine Or.inl ⟨cp :: pre, post, rfl, ?_, ?_⟩
        · rw [ucs4ToDest, List.length_append, ← Nat.add_assoc, hpre]
        · rw [hclean, List.length_cons, Nat.add_assoc, Nat.add_comm 1]
      · refine Or.inr ⟨cp :: pre, c, post, rfl, ?_, ?_, hclean⟩
        · rw [ucs4ToDest, List.length_append, ← Nat.add_assoc]
          exact hpre
        · rw [ucs4ToDest, List.length_append, ← Nat.add_assoc]
          exact hc
    · refine Or.inl ⟨[cp], points, rfl, ?_, ?_⟩
      · simpa [ucs4ToDest] using heq
      · rw [if_neg (by omega)]
        simp [heq]
    · refine Or.inr ⟨[], cp, points, rfl, by simpa [ucs4ToDest] using hused,
        by simpa [ucs4ToDest] using hgt, ?_⟩
      rw [if_neg (by omega)]
      simp [Nat.ne_of_gt hgt]

end Cuts

section Blocks
variable {points : List UInt32} (hpoints : ∀ cp ∈ points, Scalar cp)
include hpoints

theorem origToUcs4_block (junk : List UInt8) (hlen : points.length ≤ 1024) :
    origToUcs4 .utf8 (ucs4ToDest .utf8 points ++ junk) (ucs4ToDest .utf8 points).length UCS4_SIZE =
      if points.length < 1024 then some (points, 0) else none := by
  have h := origToUcs4_append (show Encoding.utf8 ≠ .unknown by decide) hpoints junk 0
    (1024 - points.length)
  rw [Nat.add_zero, show 1024 - points.length + points.length = UCS4_SIZE by
    show _ = 1024; omega] at h
  rw [h]
  split_ifs with hlt
  · obtain ⟨k, hk⟩ := Nat.exists_eq_add_of_lt hlt
    rw [show 1024 - points.length = k + 1 by omega, origToUcs4, readCodepoint_zero]
    simp
  · rw [show 1024 - points.length = 0 by omega, origToUcs4]
    rfl

/-- A sequence cut at the end of `inbuf` makes the decoder read beyond it. -/
theorem origToUcs4_cut {cp : UInt32} (hcp : Scalar cp) {p q : List UInt8}
    (hcut : writeCodepoint .utf8 cp = p ++ q) (hp : p ≠ []) (hq : q ≠ [])
    (hlen : points.length ≤ 1024) :
    origToUcs4 .utf8 (ucs4ToDest .utf8 points ++ p) ((ucs4ToDest .utf8 points).length + p.length)
      UCS4_SIZE = none := by
  have h := origToUcs4_append (show Encoding.utf8 ≠ .unknown by decide) hpoints p p.length
    (1024 - points.length)
  rw [show 1024 - points.length + points.length = UCS4_SIZE by show _ = 1024; omega] at h
  rw [h]
  have hread := read_utf8_cut hcp hcut hp hq (List.length_pos_of_ne_nil hp)
  cases 1024 - points.length with
  | zero => rfl
  | succ room => simp [origToUcs4, hread]

theorem origToUcs4_inside {pre post : List UInt32} {cp : UInt32}
    (hsplit : points = pre ++ cp :: post) (hpre : (ucs4ToDest .utf8 pre).length < 1024)
    (hcp : 1024 < (ucs4ToDest .utf8 pre).length + (writeCodepoint .utf8 cp).length) :
    origToUcs4 .utf8 ((ucs4ToDest .utf8 points).take 1024) 1024 UCS4_SIZE = none := by
  subst hsplit
  have hpre' : ∀ c ∈ pre, Scalar c := fun c hc => hpoints c (by simp [hc])
  have hcount := le_ucs4ToDest_length (show Encoding.utf8 ≠ .unknown by decide) pre
  have htaken : (ucs4ToDest .utf8 (pre ++ cp :: post)).take 1024 = ucs4ToDest .utf8 pre ++
      (writeCodepoint .utf8 cp).take (1024 - (ucs4ToDest .utf8 pre).length) := by
    rw [ucs4ToDest_append, ucs4ToDest, List.take_append, List.take_append,
      List.take_of_length_le (l := ucs4ToDest .utf8 pre) (by omega),
      show 1024 - (ucs4ToDest .utf8 pre).length - (writeCodepoint .utf8 cp).length = 0 by omega,
      List.take_zero, List.append_nil]
  have hdec := origToUcs4_cut hpre' (hpoints cp (by simp))
    (List.take_append_drop (1024 - (ucs4ToDest .utf8 pre).length) _).symm
    (List.ne_nil_of_length_pos (by rw [List.length_take]; omega))
    (List.ne_nil_of_length_pos (by rw [List.length_drop]; omega)) (by omega)
  rw [List.length_take, show (ucs4ToDest .utf8 pre).length +
    min (1024 - (ucs4ToDest .utf8 pre).length) (writeCodepoint .utf8 cp).length = 1024 by
      omega] at hdec
  rw [htaken, hdec]

end Blocks

theorem ucs4ToDest_split {pre : List UInt32} {k : ℕ} (hpre : (ucs4ToDest .utf8 pre).length = k)
    (post : List UInt32) :
    (ucs4ToDest .utf8 (pre ++ post)).take k = ucs4ToDest .utf8 pre ∧
      (ucs4ToDest .utf8 (pre ++ post)).drop k = ucs4ToDest .utf8 post := by
  rw [ucs4ToDest_append, ← hpre, List.take_left, List.drop_left]
  exact ⟨rfl, rfl⟩

section FullReads
variable {dest : Encoding} {wishes : ℕ → ℕ} {inbuf bom stdin : List UInt8} {prev : ℕ}
  {points : List UInt32} (hpoints : ∀ cp ∈ points, Scalar cp)
  (hinbuf : inbuf.length = INBUF_SIZE) (hprev : prev ≤ 4) (hbom : bom.length ≤ 4)
  (htext : inbuf.take prev ++ stdin = ucs4ToDest .utf8 points) (hfull : ∀ i, 1024 ≤ wishes i)
include hprev hfull

theorem read_full : read (wishes 0) (sizeSub INBUF_SIZE prev) stdin =
    (stdin.take (1024 - prev), stdin.drop (1024 - prev)) := by
  have h1024 : INBUF_SIZE = 1024 := rfl
  have hw := hfull 0
  rw [sizeSub_of_le (by omega), read, List.splitAt_eq, h1024,
    show min (1024 - prev) (Max.max 1 (wishes 0)) = 1024 - prev by omega]

include hinbuf htext

theorem mainLoop_block (hfill : 1024 ≤ (ucs4ToDest .utf8 points).length) :
    mainLoop .utf8 dest wishes inbuf prev bom stdin = do
      let (block, left) ← origToUcs4 .utf8 ((ucs4ToDest .utf8 points).take 1024) 1024 UCS4_SIZE
      if bom.length + (ucs4ToDest dest block).length > OUTBUF_SIZE then
        none
      else
        let written ← mainLoop .utf8 dest (fun i => wishes (i + 1))
          (compact ((ucs4ToDest .utf8 points).take 1024) 1024 left) left []
          ((ucs4ToDest .utf8 points).drop 1024)
        return bom ++ ucs4ToDest dest block ++ written := by
  have h1024 : INBUF_SIZE = 1024 := rfl
  have htake : (inbuf.take prev).length = prev := by rw [List.length_take]; omega
  have htotal : prev + stdin.length = (ucs4ToDest .utf8 points).length := by
    rw [← htext, List.length_append, htake]
  have hlenp : (stdin.take (1024 - prev)).length = 1024 - prev := by
    rw [List.length_take]
    omega
  have hbuf : store inbuf prev (stdin.take (1024 - prev)) =
      (ucs4ToDest .utf8 points).take 1024 := by
    rw [store, hlenp, List.drop_eq_nil_of_le (by omega), List.append_nil, ← htext,
      List.take_append, htake, List.take_of_length_le (l := inbuf.take prev) (by omega)]
  have hrest : stdin.drop (1024 - prev) = (ucs4ToDest .utf8 points).drop 1024 := by
    have hgone : (inbuf.take prev).drop 1024 = [] := List.drop_eq_nil_of_le (by omega)
    rw [← htext, List.drop_append, htake, hgone, List.nil_append]
  rw [mainLoop_step (read_full hprev hfull) (by omega), hbuf, hrest, hlenp,
    show 1024 - prev + prev = 1024 by omega]

include hpoints hbom

theorem mainLoop_last (hstdin : stdin ≠ []) (hlast : (ucs4ToDest .utf8 points).length < 1024) :
    mainLoop .utf8 dest wishes inbuf prev bom stdin = some (bom ++ ucs4ToDest dest points) := by
  have h1024 : INBUF_SIZE = 1024 := rfl
  have hcount := le_ucs4ToDest_length (show Encoding.utf8 ≠ .unknown by decide) points
  have hpos := List.length_pos_of_ne_nil hstdin
  have htotal : prev + stdin.length = (ucs4ToDest .utf8 points).length := by
    rw [← htext, List.length_append, List.length_take]
    omega
  have hread : read (wishes 0) (sizeSub INBUF_SIZE prev) stdin = _ := read_full hprev hfull
  rw [List.take_of_length_le (by omega), List.drop_eq_nil_of_le (by omega)] at hread
  have hbuf : store inbuf prev stdin =
      ucs4ToDest .utf8 points ++ inbuf.drop (prev + stdin.length) := by rw [store, htext]
  have hout := ucs4ToDest_length_le dest points
  rw [mainLoop_step hread hpos, hbuf,
    show stdin.length + prev = (ucs4ToDest .utf8 points).length by omega,
    origToUcs4_block hpoints _ (by omega), if_pos (by omega)]
  simp only [Option.bind_eq_bind, Option.bind_some]
  rw [if_neg (by show ¬ _ > 1024 * 4 + 4; omega)]
  simp

/-- With full reads, the loop converts a UTF-8 text exactly when it is cut cleanly. -/
theorem mainLoop_utf8 (hstdin : stdin ≠ []) :
    mainLoop .utf8 dest wishes inbuf prev bom stdin =
      if cutsClean 0 0 points then some (bom ++ ucs4ToDest dest points) else none := by
  have h1024 : INBUF_SIZE = 1024 := rfl
  have h8 : Encoding.utf8 ≠ .unknown := by decide
  induction hn : points.length using Nat.strongRecOn
    generalizing stdin inbuf prev bom wishes points with
  | ind n ih =>
    by_cases hlast : (ucs4ToDest .utf8 points).length < 1024
    · rw [mainLoop_last hpoints hinbuf hprev hbom htext hfull hstdin hlast,
        cutsClean_of_lt (by omega), if_pos rfl]
    rw [mainLoop_block hinbuf hprev htext hfull (by omega)]
    rcases cutsClean_cases 0 0 points (by omega) (by omega) with
      ⟨pre, post, rfl, hpre, hclean⟩ | ⟨pre, cp, post, hsplit, hpre, hcp, hclean⟩
    · -- the block ends between two code points
      rw [Nat.zero_add] at hpre hclean
      have hpre' : ∀ c ∈ pre, Scalar c := fun c hc => hpoints c (by simp [hc])
      have hpost : ∀ c ∈ post, Scalar c := fun c hc => hpoints c (by simp [hc])
      have hcountp := le_ucs4ToDest_length h8 pre
      obtain ⟨htaken, hdropped⟩ := ucs4ToDest_split hpre post
      have hdec := origToUcs4_block hpre' [] (by omega)
      rw [List.append_nil, hpre] at hdec
      rw [htaken, hdropped, hdec, hclean]
      by_cases hlt : pre.length < 1024
      · have hout := ucs4ToDest_length_le dest pre
        rw [if_pos hlt]
        simp only [Option.bind_eq_bind, Option.bind_some, hlt, decide_true, Bool.true_and]
        rw [if_neg (by show ¬ _ > 1024 * 4 + 4; omega)]
        have hcompact : compact (ucs4ToDest .utf8 pre) 1024 0 = ucs4ToDest .utf8 pre :=
          if_neg (by omega)
        rw [hcompact]
        by_cases hend : ucs4ToDest .utf8 post = []
        · have hnil : post = [] := by
            have hle := le_ucs4ToDest_length h8 post
            rw [hend] at hle
            exact List.length_eq_zero_iff.mp (Nat.le_zero.mp hle)
          subst hnil
          rw [hend]
          simp [cutsClean]
        · have hnonempty : pre ≠ [] := by
            rintro rfl
            simp [ucs4ToDest] at hpre
          have hshorter : post.length < n := by
            have := List.length_pos_of_ne_nil hnonempty
            rw [← hn, List.length_append]
            omega
          have hnext : mainLoop .utf8 dest (fun i => wishes (i + 1)) (ucs4ToDest .utf8 pre) 0 []
              (ucs4ToDest .utf8 post) = _ :=
            ih post.length hshorter hpost (by rw [hpre, h1024]) (by omega) (by simp) (by simp)
              (fun i => hfull (i + 1)) hend rfl
          rw [hnext]
          cases cutsClean 0 0 post <;> simp [ucs4ToDest_append]
      · rw [if_neg hlt]
        simp [hlt]
    · -- the block ends inside a sequence
      rw [Nat.zero_add] at hpre hcp
      rw [origToUcs4_inside hpoints hsplit hpre hcp, hclean]
      rfl

end FullReads

theorem wideDecoder_run_faithful {src : Encoding} (hw : src.wide = true) {points : List UInt32}
    (hpoints : ∀ cp ∈ points, Faithful src cp) :
    ((wideDecoder src hw).run (ucs4ToDest src points)).1 = points := by
  have hnext : ∀ cp rest, Faithful src cp →
      (wideDecoder src hw).next (writeCodepoint src cp ++ rest) =
        some (cp, (writeCodepoint src cp).length) := by
    intro cp rest hcp
    refine nextCodepoint_eq_some.mpr ⟨?_, writeCodepoint_length_pos (wide_ne_unknown hw) cp⟩
    exact readCodepoint_faithful rest hcp (by simp)
  have hrun := Decoder.run_flatMap hnext hpoints []
  have hnil : (wideDecoder src hw).run [] = ([], []) := by
    apply Decoder.run_none
    show nextCodepoint src [] = none
    simp [nextCodepoint, readCodepoint_zero]
  rw [List.append_nil, hnil, ← ucs4ToDest_eq_flatMap] at hrun
  rw [hrun, List.append_nil]

theorem wideDecoder_run {src : Encoding} (hw : src.wide = true) {points : List UInt32}
    (hpoints : ∀ cp ∈ points, Scalar cp) :
    ((wideDecoder src hw).run (ucs4ToDest src points)).1 = points :=
  wideDecoder_run_faithful hw fun cp hcp => (hpoints cp hcp).faithful (wide_ne_unknown hw)

/-- When a text keeps its code points: it goes on after the first four bytes, unless nothing
is to be written, and in UTF-8 it is cut cleanly. -/
def Survives (src dest : Encoding) (points : List UInt32) : Prop :=
  if (textFile src points).length = 4 then dest = .utf8 ∧ points = []
  else src = .utf8 → cutsClean 0 0 points = true

theorem output_eq_nil {dest : Encoding} (hdest : dest ≠ .unknown) (points : List UInt32) :
    [] = writeBom dest ++ ucs4ToDest dest points ↔ dest = .utf8 ∧ points = [] := by
  constructor
  · intro h
    obtain ⟨hbom, hbody⟩ := List.append_eq_nil_iff.mp h.symm
    have hle := le_ucs4ToDest_length hdest points
    rw [hbody] at hle
    refine ⟨?_, List.length_eq_zero_iff.mp (Nat.le_zero.mp hle)⟩
    cases dest <;> first | rfl | exact absurd rfl hdest | simp [writeBom] at hbom
  · rintro ⟨rfl, rfl⟩
    rfl

/-- The whole text comes out exactly when it survives. -/
theorem main_textFile_iff {prog enc : String} (hdest : strToEncoding enc ≠ .unknown)
    {src : Encoding} (hsrc : src ≠ .unknown) {points : List UInt32}
    (hpoints : ∀ cp ∈ points, Scalar cp) (h4 : 4 ≤ (textFile src points).length)
    (hmark : ¬ (src = .utf16le ∧ points.head? = some 0)) {wishes : ℕ → ℕ}
    (hfull : ∀ i, 1024 ≤ wishes i) (u : Uninitialised) :
    main [prog, enc] wishes u (textFile src points) =
        some (0, writeBom (strToEncoding enc) ++ ucs4ToDest (strToEncoding enc) points) ↔
      Survives src (strToEncoding enc) points := by
  obtain ⟨b0, b1, b2, b3, stream, hfile, hbom, hcarried⟩ :=
    textFile_split hsrc hpoints h4 hmark
  obtain ⟨inbuf, hlen, htake, hmain⟩ := main_eq prog u b0 b1 b2 b3 stream hdest
    (show 4 ≤ wishes 0 by have := hfull 0; omega)
  rw [hbom] at htake hmain
  unfold Survives
  rw [hfile, hmain]
  by_cases hstream : stream = []
  · subst hstream
    have hfour : [b0, b1, b2, b3].length = 4 := rfl
    rw [mainLoop_nil, if_pos hfour, ← output_eq_nil hdest]
    simp
  have hlong : ¬ (b0 :: b1 :: b2 :: b3 :: stream).length = 4 := by
    have := List.length_pos_of_ne_nil hstream
    simp only [List.length_cons]
    omega
  rw [if_neg hlong]
  by_cases h8 : src = .utf8
  · subst h8
    rw [mainLoop_utf8 hpoints hlen (by simp [carried]) (writeBom_length_le _)
      (by rw [htake, hcarried]) (fun i => hfull (i + 1)) hstream]
    cases cutsClean 0 0 points <;> simp
  · have hw : src.wide = true := by
      cases src <;> first | rfl | exact absurd rfl h8 | exact absurd rfl hsrc
    rw [mainLoop_wide hw hlen (carried_length_lt hw) (writeBom_length_le _) hstream, htake,
      hcarried, wideDecoder_run hw hpoints]
    simp [h8]

theorem main_textFile_iff_sample :
    main ["recode57", "UTF-8"] (fun _ => 1024) ⟨fun _ => 0, fun _ => 0⟩
        (textFile .utf16le [0x68, 0xE9, 0x1F600]) =
      some (0, writeBom (strToEncoding "UTF-8") ++
        ucs4ToDest (strToEncoding "UTF-8") [0x68, 0xE9, 0x1F600]) ↔
      Survives .utf16le (strToEncoding "UTF-8") [0x68, 0xE9, 0x1F600] :=
  main_textFile_iff (by decide) (by decide) (by simp [Scalar]) (by decide) (by decide)
    (fun _ => le_rfl) _

/-- Four bytes of UTF-8 are read, copied to `inbuf` and never converted. -/
theorem fourBytes_lost : (∀ cp ∈ [0x61, 0x62, 0x63, 0x64], Scalar cp) ∧
    (textFile .utf8 [0x61, 0x62, 0x63, 0x64]).length = 4 ∧
    main ["recode57", "UTF-16BE"] (fun _ => 1024) ⟨fun _ => 0, fun _ => 0⟩
        (textFile .utf8 [0x61, 0x62, 0x63, 0x64]) = some (0, []) ∧
    writeBom .utf16be ++ ucs4ToDest .utf16be [0x61, 0x62, 0x63, 0x64] ≠ [] := by
  refine ⟨by simp [Scalar], by decide, ?_, by decide⟩
  obtain ⟨inbuf, -, -, hmain⟩ := @main_eq "UTF-16BE" (fun _ => 1024) "recode57"
    ⟨fun _ => 0, fun _ => 0⟩ 0x61 0x62 0x63 0x64 [] (by decide) (by decide)
  rw [mainLoop_nil] at hmain
  exact hmain

end Orga.Recode
