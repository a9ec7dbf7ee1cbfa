import Orga.Recode.Faithful

/-! Runs of `recode57` one after another. The program decodes its input and encodes the result,
and only the second half knows the destination; so a detour through another encoding is seen
exactly in the values that have no place there. -/
namespace Orga.Recode
open Orga.Decoding

theorem origToUcs4_length {enc : Encoding} {buf : List UInt8} {n room left : ℕ}
    {points : List UInt32} (h : origToUcs4 enc buf n room = some (points, left)) :
    points.length < room := by
  induction room generalizing buf n points left with
  | zero => simp [origToUcs4] at h
  | succ room ih =>
    rw [origToUcs4] at h
    obtain ⟨⟨cp, b⟩, -, h⟩ := Option.bind_eq_some_iff.mp h
    dsimp only at h
    split_ifs at h
    · obtain ⟨⟨points', left'⟩, hrest, h⟩ := Option.bind_eq_some_iff.mp h
      obtain ⟨rfl, -⟩ := Prod.mk.inj (Option.some.inj h)
      have hlt : points'.length < room := ih hrest
      exact Nat.succ_lt_succ hlt
    · obtain ⟨rfl, -⟩ := Prod.mk.inj (Option.some.inj h)
      exact Nat.succ_pos room

section Loop
variable {orig : Encoding} {wishes : ℕ → ℕ} {inbuf stdin : List UInt8} {prev : ℕ}

theorem mainLoop_end (dest : Encoding) (bom : List UInt8)
    (h : (read (wishes 0) (sizeSub INBUF_SIZE prev) stdin).1 = []) :
    mainLoop orig dest wishes inbuf prev bom stdin = some [] := by
  rw [mainLoop]
  simp [h]

/-- An iteration stores at most 1024 code points, whatever they are encoded to. -/
theorem outbuf_fits {dest : Encoding} {bom : List UInt8} {points : List UInt32} {n left : ℕ}
    (hbom : bom.length ≤ 4) (h : origToUcs4 orig inbuf n UCS4_SIZE = some (points, left)) :
    ¬ bom.length + (ucs4ToDest dest points).length > OUTBUF_SIZE := by
  have hcount : points.length < 1024 := origToUcs4_length h
  have hout := ucs4ToDest_length_le dest points
  show ¬ _ > 1024 * 4 + 4
  omega

/-- What the loop decodes does not depend on the destination. -/
theorem mainLoop_factors (orig : Encoding) (wishes : ℕ → ℕ) (inbuf : List UInt8) (prev : ℕ)
    (stdin : List UInt8) : ∃ decoded : Option (List UInt32), ∀ dest,
      mainLoop orig dest wishes inbuf prev [] stdin = decoded.map (ucs4ToDest dest) := by
  induction hn : stdin.length using Nat.strongRecOn generalizing wishes inbuf prev stdin with
  | ind n ih =>
    rcases hread : read (wishes 0) (sizeSub INBUF_SIZE prev) stdin with ⟨piece, rest⟩
    have hlen := read_length (wishes 0) (sizeSub INBUF_SIZE prev) stdin
    rw [hread] at hlen
    dsimp only at hlen
    by_cases hpiece : piece = []
    · refine ⟨some [], fun dest => mainLoop_end dest [] ?_⟩
      rw [hread, hpiece]
    · have hpos := List.length_pos_of_ne_nil hpiece
      cases hdec : origToUcs4 orig (store inbuf prev piece) (piece.length + prev) UCS4_SIZE with
      | none =>
        refine ⟨none, fun dest => ?_⟩
        rw [mainLoop_step hread hpos, hdec]
        rfl
      | some r =>
        obtain ⟨points, left⟩ := r
        obtain ⟨decoded, hrest⟩ := ih rest.length (by omega) (fun i => wishes (i + 1))
          (compact (store inbuf prev piece) (piece.length + prev) left) left rest rfl
        refine ⟨decoded.map (points ++ ·), fun dest => ?_⟩
        rw [mainLoop_step hread hpos, hdec]
        simp only [Option.bind_eq_bind, Option.bind_some]
        rw [if_neg (outbuf_fits (by simp) hdec), hrest dest]
        cases decoded with
        | none => rfl
        | some points' => simp [ucs4ToDest_append]

theorem mainLoop_bom (orig : Encoding) (wishes : ℕ → ℕ) (inbuf : List UInt8) (hprev : prev ≤ 4)
    (hstdin : stdin ≠ []) :
    ∃ decoded : Option (List UInt32), ∀ dest,
      mainLoop orig dest wishes inbuf prev (writeBom dest) stdin =
        decoded.map fun points => writeBom dest ++ ucs4ToDest dest points := by
  obtain ⟨piece, rest, hread, -, hpos, -⟩ := read_piece (wishes 0) (sizeSub INBUF_SIZE prev)
    (by rw [sizeSub_of_le (by show _ ≤ 1024; omega)]; show 0 < 1024 - prev; omega) hstdin
  cases hdec : origToUcs4 orig (store inbuf prev piece) (piece.length + prev) UCS4_SIZE with
  | none =>
    refine ⟨none, fun dest => ?_⟩
    rw [mainLoop_step hread hpos, hdec]
    rfl
  | some r =>
    obtain ⟨points, left⟩ := r
    obtain ⟨decoded, hrest⟩ := mainLoop_factors orig (fun i => wishes (i + 1))
      (compact (store inbuf prev piece) (piece.length + prev) left) left rest
    refine ⟨decoded.map (points ++ ·), fun dest => ?_⟩
    rw [mainLoop_step hread hpos, hdec]
    simp only [Option.bind_eq_bind, Option.bind_some]
    rw [if_neg (outbuf_fits (writeBom_length_le dest) hdec), hrest dest]
    cases decoded with
    | none => rfl
    | some points' => simp [ucs4ToDest_append]

end Loop

theorem firstBuffer_prev_le (orig : Encoding) (u : Uninitialised) (bom : List UInt8) :
    (firstBuffer orig u bom).2 ≤ 4 := by
  unfold firstBuffer
  dsimp only
  split_ifs <;> simp

section Program
variable {wishes : ℕ → ℕ} {u : Uninitialised} {stdin : List UInt8}

/-- Input that ends with the first read gives no output, not even a mark. -/
theorem main_short (hrest : (read (wishes 0) 4 stdin).2 = []) {prog enc : String}
    (hdest : strToEncoding enc ≠ .unknown) : main [prog, enc] wishes u stdin = some (0, []) := by
  obtain ⟨orig, b0, b1, b2, b3, hfirst, rfl⟩ := exists_detects wishes u stdin
  rw [main_detects hdest hfirst, hrest, mainLoop_nil]
  rfl

theorem main_long (u : Uninitialised) (hrest : (read (wishes 0) 4 stdin).2 ≠ []) :
    ∃ decoded : Option (List UInt32), ∀ prog enc, strToEncoding enc ≠ .unknown →
      main [prog, enc] wishes u stdin = decoded.map fun points =>
        (0, writeBom (strToEncoding enc) ++ ucs4ToDest (strToEncoding enc) points) := by
  obtain ⟨orig, b0, b1, b2, b3, hfirst, rfl⟩ := exists_detects wishes u stdin
  obtain ⟨decoded, hloop⟩ := mainLoop_bom (bomToEncoding b0 b1 b2 b3)
    (fun i => wishes (i + 1))
    (firstBuffer (bomToEncoding b0 b1 b2 b3) u (firstBytes wishes u stdin)).1
    (firstBuffer_prev_le (bomToEncoding b0 b1 b2 b3) u (firstBytes wishes u stdin)) hrest
  refine ⟨decoded, fun prog enc hdest => ?_⟩
  rw [main_detects hdest hfirst, hloop]
  cases decoded <;> rfl

end Program

/-- The program is a decoder followed by an encoder. Whether a run is defined, and which code
points it converts, is settled before the destination matters; the array `outbuf` is large enough
for all of them; and input that ends with the first read gives no output, not even a mark. -/
theorem main_factors (wishes : ℕ → ℕ) (u : Uninitialised) (stdin : List UInt8) :
    ∃ decoded : Option (List UInt32), ∀ prog enc, strToEncoding enc ≠ .unknown →
      main [prog, enc] wishes u stdin =
        if (read (wishes 0) 4 stdin).2 = [] then some (0, [])
        else decoded.map fun points =>
          (0, writeBom (strToEncoding enc) ++ ucs4ToDest (strToEncoding enc) points) := by
  by_cases hrest : (read (wishes 0) 4 stdin).2 = []
  · refine ⟨none, fun prog enc hdest => ?_⟩
    rw [if_pos hrest, main_short hrest hdest]
  · obtain ⟨decoded, hmain⟩ := main_long u hrest
    refine ⟨decoded, fun prog enc hdest => ?_⟩
    rw [if_neg hrest, hmain prog enc hdest]

/-- A run that converts `points`, to whatever destination. -/
def Converts (wishes : ℕ → ℕ) (u : Uninitialised) (stdin : List UInt8) (points : List UInt32) :
    Prop :=
  ∀ prog enc, strToEncoding enc ≠ .unknown →
    main [prog, enc] wishes u stdin = some (0, textFile (strToEncoding enc) points)

section Through
variable {prog prog' enc mid : String} {wishes wishes' : ℕ → ℕ} {u u' : Uninitialised}
  {stdin out : List UInt8} {points : List UInt32}

theorem Converts.unique {stdin' : List UInt8} {points' : List UInt32}
    (h : Converts wishes u stdin points) (h' : Converts wishes' u' stdin' points')
    (heq : ∀ prog enc, strToEncoding enc ≠ .unknown →
      main [prog, enc] wishes u stdin = main [prog, enc] wishes' u' stdin') :
    points = points' := by
  have h32 : strToEncoding "UTF-32BE" = .utf32be := by decide
  have hknown : strToEncoding "UTF-32BE" ≠ .unknown := by rw [h32]; decide
  have hsame := heq "recode57" "UTF-32BE" hknown
  rw [h _ _ hknown, h' _ _ hknown, h32] at hsame
  have hfile := congrArg Prod.snd (Option.some.inj hsame)
  have hbody : ucs4ToDest .utf32be points = ucs4ToDest .utf32be points' :=
    List.append_cancel_left hfile
  have hback : ∀ ps : List UInt32,
      ((wideDecoder .utf32be rfl).run (ucs4ToDest .utf32be ps)).1 = ps :=
    fun ps => wideDecoder_run_faithful rfl fun cp _ => show Faithful .utf32be cp from trivial
  rw [← hback points, hbody, hback points']

/-- What the first read leaves to the buffer, and the rest, are the text behind the mark. -/
theorem carried_append {enc : Encoding} (hw : enc.wide = true) {b0 b1 b2 b3 : UInt8}
    {stream body : List UInt8} (h : writeBom enc ++ body = b0 :: b1 :: b2 :: b3 :: stream) :
    carried enc [b0, b1, b2, b3] ++ stream = body := by
  have hdrop := congrArg (List.drop (writeBom enc).length) h
  rw [List.drop_left] at hdrop
  rw [hdrop]
  cases enc <;> first | rfl | simp [Encoding.wide] at hw

theorem converts_wide {src : Encoding} (hw : src.wide = true) (hdet : Detects wishes u stdin src)
    (hrest : (read (wishes 0) 4 stdin).2 ≠ []) :
    Converts wishes u stdin ((wideDecoder src hw).run
      (carried src (firstBytes wishes u stdin) ++ (read (wishes 0) 4 stdin).2)).1 := by
  intro prog enc hdest
  obtain ⟨b0, b1, b2, b3, hfirst, hbom⟩ := hdet
  obtain ⟨hlen, htake, hcount⟩ := firstBuffer_carried src u (firstBytes_length wishes u stdin)
  have hshort : (firstBuffer src u (firstBytes wishes u stdin)).2 < 4 := by
    rw [hcount, hfirst]
    exact carried_length_lt hw
  rw [main_detects hdest hfirst, hbom,
    mainLoop_wide hw hlen hshort (writeBom_length_le _) hrest, hcount, htake]
  rfl

theorem read_four {b0 b1 b2 b3 : UInt8} {stream : List UInt8} (hfour : 4 ≤ wishes 0)
    (u : Uninitialised) :
    read (wishes 0) 4 (b0 :: b1 :: b2 :: b3 :: stream) = ([b0, b1, b2, b3], stream) ∧
      firstBytes wishes u (b0 :: b1 :: b2 :: b3 :: stream) = [b0, b1, b2, b3] := by
  have hread : read (wishes 0) 4 (b0 :: b1 :: b2 :: b3 :: stream) =
      ([b0, b1, b2, b3], stream) := by
    rw [read, show min 4 (Max.max 1 (wishes 0)) = 4 by omega, List.splitAt_eq]
    rfl
  refine ⟨hread, ?_⟩
  rw [firstBytes, hread]
  rfl

theorem converts_textFile {src : Encoding} (hw : src.wide = true) (hfour : 4 ≤ wishes 0)
    (hdet : Detects wishes u (textFile src points) src)
    (hlong : 4 < (textFile src points).length) :
    Converts wishes u (textFile src points)
      ((wideDecoder src hw).run (ucs4ToDest src points)).1 := by
  obtain ⟨b0, b1, rest, hfile⟩ := exists_two (show 2 ≤ (textFile src points).length by omega)
  rw [hfile, List.length_cons, List.length_cons] at hlong
  obtain ⟨b2, b3, stream, rfl⟩ := exists_two (show 2 ≤ rest.length by omega)
  obtain ⟨hread, hbytes⟩ := @read_four wishes b0 b1 b2 b3 stream hfour u
  have hstream : stream ≠ [] := by
    rintro rfl
    exact absurd hlong (by simp)
  have h := converts_wide hw hdet (by rw [hfile, hread]; exact hstream)
  rw [hfile, hbytes, hread, carried_append hw hfile] at h
  rw [hfile]
  exact h

theorem faithful_run {src : Encoding} (hw : src.wide = true) (buf : List UInt8) :
    ∀ cp ∈ ((wideDecoder src hw).run buf).1, Faithful src cp := by
  refine Decoder.forall_mem_run (fun buf cp k hnext => ?_) buf
  obtain ⟨hread, hpos⟩ := nextCodepoint_eq_some.mp hnext
  exact faithful_of_read hread hpos

theorem converts_faithful {src : Encoding} (hw : src.wide = true) (hfour : 4 ≤ wishes 0)
    (hdet : Detects wishes u (textFile src points) src)
    (hlong : 4 < (textFile src points).length) (hall : ∀ cp ∈ points, Faithful src cp) :
    Converts wishes u (textFile src points) points := by
  have h := converts_textFile hw hfour hdet hlong
  rwa [wideDecoder_run_faithful hw hall] at h

/-- A detour through UTF-16 or UTF-32 is invisible, to every destination and however the two runs
read, exactly when the encoding on the way has a place for every code point. -/
theorem main_through_iff (hmid : (strToEncoding mid).wide = true)
    (hconv : Converts wishes u stdin points) (hfour : 4 ≤ wishes' 0)
    (hdet : Detects wishes' u' (textFile (strToEncoding mid) points) (strToEncoding mid))
    (hlong : 4 < (textFile (strToEncoding mid) points).length) :
    (∀ prog enc, strToEncoding enc ≠ .unknown →
      (main [prog, mid] wishes u stdin).bind (fun r => main [prog, enc] wishes' u' r.2) =
        main [prog, enc] wishes u stdin) ↔
      ∀ cp ∈ points, Faithful (strToEncoding mid) cp := by
  have hsecond := converts_textFile hmid hfour hdet hlong
  have hfirst := fun prog => hconv prog mid (wide_ne_unknown hmid)
  simp only [hfirst, Option.bind_some]
  constructor
  · intro h
    rw [← hsecond.unique hconv h]
    exact faithful_run hmid _
  · intro h prog enc hdest
    rw [converts_faithful hmid hfour hdet hlong h prog enc hdest, hconv prog enc hdest]

def sampleText : List UInt32 := [0x68, 0xE9, 0x1F600]

theorem converts_sampleText : Converts (fun _ => 1024) ⟨fun _ => 0, fun _ => 0⟩
    (textFile .utf16be sampleText) sampleText := by
  have hdet : Detects (fun _ => 1024) ⟨fun _ => 0, fun _ => 0⟩ (textFile .utf16be sampleText)
      .utf16be := ⟨0xFE, 0xFF, 0, 0x68, (read_four (by decide) _).2, by decide⟩
  have hpoints : ∀ cp ∈ sampleText, Faithful .utf16be cp := by simp [sampleText, Faithful]
  exact converts_faithful rfl (by decide) hdet (by decide) hpoints

theorem main_through_iff_sampleText :
    (∀ prog enc, strToEncoding enc ≠ .unknown →
      (main [prog, "UTF-16LE"] (fun _ => 1024) ⟨fun _ => 0, fun _ => 0⟩
          (textFile .utf16be sampleText)).bind
        (fun r => main [prog, enc] (fun _ => 5) ⟨fun _ => 1, fun _ => 1⟩ r.2) =
        main [prog, enc] (fun _ => 1024) ⟨fun _ => 0, fun _ => 0⟩
          (textFile .utf16be sampleText)) ↔
      ∀ cp ∈ sampleText, Faithful (strToEncoding "UTF-16LE") cp :=
  main_through_iff (by decide) converts_sampleText (by decide)
    ⟨0xFF, 0xFE, 0x68, 0, (read_four (by decide) _).2, by decide⟩ (by decide)

end Through

end Orga.Recode
