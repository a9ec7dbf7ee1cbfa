import Orga.Recode.Calls

/-! The iterations of the loop of `main`: what each one reads, decodes, stores and moves. The
bytes left over count as moved also where the ranges of `memcpy` meet. -/
namespace Orga.Recode

/-- One iteration: `prevbytes` when `read` is called, `inbuf` and `inbytes` after it, the bytes
of the mark in front of `outbuf`, the calls of `read_codepoint`, and `prevbytes` after them. -/
structure Iteration where
  prevbytes : ℕ
  inbuf : List UInt8
  inbytes : ℕ
  bom : List UInt8
  calls : List Call
  left : ℕ

namespace Iteration
variable (it : Iteration)

/-- What the buffer holds for `orig_to_ucs4`. -/
def bytes : List UInt8 := it.inbuf.take it.inbytes

/-- The code points returned: the last call stores one more, and does not count. -/
def points : List UInt32 := it.calls.dropLast.map Call.point

def written (dest : Encoding) : List UInt8 := it.bom ++ ucs4ToDest dest it.points

end Iteration

/-- The iterations of the loop from its head on, and `prevbytes` when `read` returns nothing. -/
inductive Iterations (orig : Encoding) :
    (ℕ → ℕ) → List UInt8 → ℕ → List UInt8 → List UInt8 → List Iteration → ℕ → Prop where
  | stop {wishes : ℕ → ℕ} {inbuf bom stdin : List UInt8} {prev : ℕ}
      (hread : (read (wishes 0) (sizeSub INBUF_SIZE prev) stdin).1 = []) :
      Iterations orig wishes inbuf prev bom stdin [] prev
  | next {wishes : ℕ → ℕ} {inbuf bom stdin piece rest : List UInt8} {prev left last : ℕ}
      {cs : List Call} {its : List Iteration}
      (hread : read (wishes 0) (sizeSub INBUF_SIZE prev) stdin = (piece, rest))
      (hpos : 0 < piece.length)
      (hcalls : Calls orig (store inbuf prev piece) (piece.length + prev) 0 cs left)
      (hrest : Iterations orig (fun i => wishes (i + 1))
        (compact (store inbuf prev piece) (piece.length + prev) left) left [] rest its last) :
      Iterations orig wishes inbuf prev bom stdin
        (⟨prev, store inbuf prev piece, piece.length + prev, bom, cs, left⟩ :: its) last

/-- The iterations of `main` on a source of encoding `orig`, and the last `prevbytes`. -/
structure MainRun (dest : Encoding) (wishes : ℕ → ℕ) (u : Uninitialised) (stdin : List UInt8)
    (orig : Encoding) (its : List Iteration) (last : ℕ) : Prop where
  source : Detects wishes u stdin orig
  loop : Iterations orig (fun i => wishes (i + 1))
    (firstBuffer orig u (firstBytes wishes u stdin)).1
    (firstBuffer orig u (firstBytes wishes u stdin)).2 (writeBom dest)
    (read (wishes 0) 4 stdin).2 its last

section WideCalls
variable {orig : Encoding} (hw : orig.wide = true) {buf : List UInt8} {n i left : ℕ}
  {cs : List Call}
include hw

theorem Calls.length_wide (h : Calls orig buf n i cs left) (hn : n ≤ buf.length) :
    2 * cs.length + left ≤ n + 2 := by
  induction h with
  | stop =>
    rw [List.length_singleton]
    omega
  | @next buf n i b left cp cs hread hb _ ih =>
    obtain ⟨cp', k, hread', hle, htwo, -⟩ := read_wide hw hn
    cases hread.symm.trans hread'
    have hrest := ih (by rw [List.length_drop, sizeSub_of_le hle]; omega)
    rw [sizeSub_of_le hle] at hrest
    rw [List.length_cons]
    omega

/-- The loop makes the same calls when the array ends after the bytes it was promised. -/
theorem Calls.take_iff (hn : n ≤ buf.length) :
    Calls orig (buf.take n) n i cs left ↔ Calls orig buf n i cs left := by
  constructor
  · intro h
    generalize hbytes : buf.take n = bytes at h
    induction h generalizing buf with
    | @stop _ n i cp hread =>
      subst hbytes
      rw [read_take hw] at hread
      exact .stop hread
    | @next _ n i b left cp cs hread hb _ ih =>
      subst hbytes
      rw [read_take hw] at hread
      obtain ⟨cp', k, hread', hle, -, -⟩ := read_wide hw hn
      cases hread.symm.trans hread'
      refine .next hread hb (ih (by rw [List.length_drop, sizeSub_of_le hle]; omega) ?_)
      rw [sizeSub_of_le hle, List.drop_take]
  · intro h
    induction h with
    | stop hread => exact .stop (by rw [read_take hw]; exact hread)
    | @next buf n i b left cp cs hread hb _ ih =>
      obtain ⟨cp', k, hread', hle, -, -⟩ := read_wide hw hn
      cases hread.symm.trans hread'
      have hrest := ih (by rw [List.length_drop, sizeSub_of_le hle]; omega)
      refine .next (by rw [read_take hw]; exact hread) hb ?_
      rw [List.drop_take, ← sizeSub_of_le hle]
      exact hrest

theorem Calls.left_wide (h : Calls orig buf n i cs left) (hn : n ≤ buf.length) :
    left ≤ 3 ∧ left ≤ n := by
  obtain ⟨cs', left', h', hf⟩ := calls_wide hw hn i
  obtain ⟨rfl, rfl⟩ := h.unique h'
  have hsum := hf.consumed
  exact ⟨hf.leftover, by omega⟩

end WideCalls

structure Head (inbuf : List UInt8) (prev : ℕ) (bom : List UInt8) : Prop where
  inbuf : inbuf.length = INBUF_SIZE
  prevbytes : prev ≤ 3
  bom : bom.length ≤ 4

/-- What every iteration keeps to. -/
structure Iteration.Sound (orig : Encoding) (it : Iteration) : Prop where
  prevbytes : it.prevbytes ≤ 3
  inbuf : it.inbuf.length = INBUF_SIZE
  inbytes : it.inbytes ≤ INBUF_SIZE
  bom : it.bom.length ≤ 4
  calls : Calls orig it.inbuf it.inbytes 0 it.calls it.left

section Loop
variable {orig dest : Encoding} (hw : orig.wide = true) {wishes : ℕ → ℕ}
  {inbuf bom stdin piece rest : List UInt8} {prev left last : ℕ} {cs : List Call}
  {its : List Iteration}

theorem Head.read_le (h : Head inbuf prev bom)
    (hread : read (wishes 0) (sizeSub INBUF_SIZE prev) stdin = (piece, rest)) :
    piece.length + prev ≤ INBUF_SIZE ∧ (store inbuf prev piece).length = INBUF_SIZE := by
  have hprev := h.prevbytes
  have h1024 : INBUF_SIZE = 1024 := rfl
  have hlen : piece.length ≤ INBUF_SIZE - prev := by
    have hfst := congrArg Prod.fst hread
    rw [sizeSub_of_le (by omega), read, List.splitAt_eq] at hfst
    rw [← show _ = piece from hfst, List.length_take]
    omega
  refine ⟨by omega, ?_⟩
  rw [store_length, h.inbuf]
  rw [h.inbuf]
  omega

theorem Iterations.first (h : Iterations orig wishes inbuf prev bom stdin its last)
    (hread : read (wishes 0) (sizeSub INBUF_SIZE prev) stdin = (piece, rest))
    (hpos : 0 < piece.length) (hprev : prev ≤ inbuf.length) :
    ∃ it ∈ its, it.bytes = inbuf.take prev ++ piece := by
  cases h with
  | stop hnil =>
    rw [hread] at hnil
    exact absurd hnil (List.ne_nil_of_length_pos hpos)
  | next hread' =>
    obtain ⟨rfl, rfl⟩ := Prod.mk.inj (hread.symm.trans hread')
    exact ⟨_, List.mem_cons_self, store_take inbuf piece hprev⟩

include hw

/-- One iteration: it is sound, and the loop comes back to its head. -/
theorem Head.step (h : Head inbuf prev bom)
    (hread : read (wishes 0) (sizeSub INBUF_SIZE prev) stdin = (piece, rest))
    (hcalls : Calls orig (store inbuf prev piece) (piece.length + prev) 0 cs left) :
    Iteration.Sound orig ⟨prev, store inbuf prev piece, piece.length + prev, bom, cs, left⟩ ∧
      Head (compact (store inbuf prev piece) (piece.length + prev) left) left [] := by
  obtain ⟨hle, hlen⟩ := h.read_le hread
  obtain ⟨hthree, hleft⟩ := hcalls.left_wide hw (by omega)
  exact ⟨⟨h.prevbytes, hlen, hle, h.bom, hcalls⟩,
    ⟨by rw [compact_length (by omega) hleft, hlen], hthree, Nat.zero_le _⟩⟩

theorem Iterations.sound (h : Iterations orig wishes inbuf prev bom stdin its last)
    (hhead : Head inbuf prev bom) : last ≤ 3 ∧ ∀ it ∈ its, it.Sound orig := by
  induction h with
  | stop => exact ⟨hhead.prevbytes, fun _ hit => absurd hit List.not_mem_nil⟩
  | next hread _ hcalls _ ih =>
    obtain ⟨hsound, hnext⟩ := hhead.step hw hread hcalls
    obtain ⟨hlast, hall⟩ := ih hnext
    refine ⟨hlast, fun it hit => ?_⟩
    rcases List.mem_cons.mp hit with rfl | hit
    · exact hsound
    · exact hall it hit

theorem exists_iterations (wishes : ℕ → ℕ) (stdin : List UInt8) (hhead : Head inbuf prev bom) :
    ∃ its last, Iterations orig wishes inbuf prev bom stdin its last := by
  induction hn : stdin.length using Nat.strongRecOn generalizing stdin inbuf prev bom wishes with
  | ind n ih =>
    rcases hread : read (wishes 0) (sizeSub INBUF_SIZE prev) stdin with ⟨piece, rest⟩
    rcases Nat.eq_zero_or_pos piece.length with hzero | hpos
    · have hnil : piece = [] := List.length_eq_zero_iff.mp hzero
      exact ⟨[], prev, .stop (by rw [hread, hnil])⟩
    · obtain ⟨hle, hlen⟩ := hhead.read_le hread
      have hfit : piece.length + prev ≤ (store inbuf prev piece).length := by omega
      obtain ⟨cs, left, hcalls, -⟩ := calls_wide hw hfit 0
      have hshorter := read_length (wishes 0) (sizeSub INBUF_SIZE prev) stdin
      rw [hread] at hshorter
      obtain ⟨its, last, hrest⟩ := ih rest.length (by dsimp only at hshorter; omega)
        (fun i => wishes (i + 1)) rest (hhead.step hw hread hcalls).2 rfl
      exact ⟨_, last, .next hread hpos hcalls hrest⟩

end Loop

section Main
variable {orig dest : Encoding} {wishes : ℕ → ℕ} {u : Uninitialised} {stdin : List UInt8}
  {its : List Iteration} {last : ℕ}

theorem head_firstBuffer (hw : orig.wide = true) (dest : Encoding) (u : Uninitialised)
    {bom : List UInt8} (hbom : bom.length = 4) :
    Head (firstBuffer orig u bom).1 (firstBuffer orig u bom).2 (writeBom dest) := by
  obtain ⟨hlen, -, hcount⟩ := firstBuffer_carried orig u hbom
  obtain ⟨b0, b1, b2, b3, rfl⟩ := List.length_eq_four.mp hbom
  have hfew : (carried orig [b0, b1, b2, b3]).length < 4 := carried_length_lt hw
  exact ⟨hlen, by omega, writeBom_length_le dest⟩

theorem MainRun.sound (h : MainRun dest wishes u stdin orig its last) (hw : orig.wide = true) :
    last ≤ 3 ∧ ∀ it ∈ its, it.Sound orig :=
  h.loop.sound hw (head_firstBuffer hw dest u (firstBytes_length wishes u stdin))

theorem exists_mainRun (dest : Encoding) (hw : orig.wide = true)
    (hsource : Detects wishes u stdin orig) :
    ∃ its last, MainRun dest wishes u stdin orig its last := by
  have hhead := head_firstBuffer hw dest u (firstBytes_length wishes u stdin)
  obtain ⟨its, last, hloop⟩ := exists_iterations hw (fun i => wishes (i + 1))
    (read (wishes 0) 4 stdin).2 hhead
  exact ⟨its, last, hsource, hloop⟩

end Main

section Output
variable {orig dest : Encoding} {wishes : ℕ → ℕ} {its : List Iteration} {last : ℕ}

/-- The code points of a sound iteration fit into `ucs4`, and what they give into `outbuf`. -/
theorem Iteration.Sound.length_points {it : Iteration} (h : it.Sound orig)
    (hw : orig.wide = true) : it.calls.length ≤ 513 ∧ it.points.length ≤ 512 := by
  have h1024 : INBUF_SIZE = 1024 := rfl
  have hinbytes := h.inbytes
  have hlen := h.calls.length_wide hw (by rw [h.inbuf]; exact hinbytes)
  have hpoints : it.points.length = it.calls.length - 1 := by
    rw [Iteration.points, List.length_map, List.length_dropLast]
  exact ⟨by omega, by omega⟩

theorem Iterations.mainLoop_eq (hw : orig.wide = true) (dest : Encoding)
    {inbuf bom stdin : List UInt8} {prev : ℕ}
    (h : Iterations orig wishes inbuf prev bom stdin its last) (hhead : Head inbuf prev bom) :
    mainLoop orig dest wishes inbuf prev bom stdin =
      some (its.flatMap fun it => it.written dest) := by
  induction h with
  | stop hread =>
    rw [mainLoop]
    simp [hread]
  | @next wishes inbuf bom stdin piece rest prev left last cs its hread hpos hcalls _ ih =>
    obtain ⟨hsound, hnext⟩ := hhead.step hw hread hcalls
    obtain ⟨hcs, hpoints⟩ := hsound.length_points hw
    change cs.length ≤ 513 at hcs
    change (cs.dropLast.map Call.point).length ≤ 512 at hpoints
    have hroom : cs.length ≤ UCS4_SIZE := by show _ ≤ 1024; omega
    have hdec := hcalls.origToUcs4 hroom
    have hout := ucs4ToDest_length_le dest (cs.dropLast.map Call.point)
    have hbom := hhead.bom
    rw [mainLoop_step hread hpos, hdec]
    simp only [Option.bind_eq_bind, Option.bind_some]
    rw [if_neg (by show ¬ _ > 1024 * 4 + 4; omega), ih hnext, List.flatMap_cons]
    rfl

/-- What `main` writes on UTF-16 and UTF-32 input. -/
theorem MainRun.main_eq {enc : String} {u : Uninitialised} {stdin : List UInt8}
    (h : MainRun (strToEncoding enc) wishes u stdin orig its last) (hw : orig.wide = true)
    (hdest : strToEncoding enc ≠ .unknown) (prog : String) :
    main [prog, enc] wishes u stdin =
      some (0, its.flatMap fun it => it.written (strToEncoding enc)) := by
  obtain ⟨⟨b0, b1, b2, b3, hfirst, hbom⟩, hloop⟩ := h
  have hhead := head_firstBuffer hw (strToEncoding enc) u (firstBytes_length wishes u stdin)
  have hwritten := hloop.mainLoop_eq hw (strToEncoding enc) hhead
  subst hbom
  rw [main_detects hdest hfirst prog, hwritten]
  rfl

end Output

/-- The calls of `write_codepoint` that `ucs4_to_dest` makes: the index of `outbuf` from which
each stores, and its bytes. -/
def stores (enc : Encoding) : List UInt32 → ℕ → List (ℕ × List UInt8)
  | [], _ => []
  | cp :: input, b =>
    (b, writeCodepoint enc cp) :: stores enc input (b + (writeCodepoint enc cp).length)

theorem stores_bytes (enc : Encoding) (points : List UInt32) (b : ℕ) :
    (stores enc points b).flatMap Prod.snd = ucs4ToDest enc points := by
  induction points generalizing b with
  | nil => rfl
  | cons cp points ih => rw [stores, List.flatMap_cons, ih, ucs4ToDest]

theorem stores_le {enc : Encoding} {points : List UInt32} {b : ℕ} {w : ℕ × List UInt8}
    (hmem : w ∈ stores enc points b) : w.1 + w.2.length ≤ 4 * points.length + b := by
  induction points generalizing b with
  | nil => exact absurd hmem List.not_mem_nil
  | cons cp points ih =>
    have hcp := writeCodepoint_length_le enc cp
    rw [List.length_cons]
    rcases List.mem_cons.mp hmem with rfl | hmem
    · dsimp only
      omega
    · have hrest := ih hmem
      omega

/-- The bounds of one iteration: the bytes it decodes and stores. -/
structure Iteration.Bounded (orig dest : Encoding) (it : Iteration) : Prop where
  prevbytes : it.prevbytes ≤ 3
  inbytes : it.inbytes ≤ 1024
  /-- The same calls succeed on an array that ends there, where a later load would fault. -/
  reads : Calls orig (it.inbuf.take it.inbytes) it.inbytes 0 it.calls it.left
  entries : ∀ c ∈ it.calls, c.index ≤ 512
  outbuf : ∀ w ∈ stores dest it.points it.bom.length,
    w.1 + w.2.length ≤ 4 * it.points.length + it.bom.length
  room : 4 * it.points.length + it.bom.length ≤ 4100

theorem Iteration.Sound.bounded {orig : Encoding} {it : Iteration} (h : it.Sound orig)
    (hw : orig.wide = true) (dest : Encoding) : it.Bounded orig dest := by
  have hn : it.inbytes ≤ it.inbuf.length := by rw [h.inbuf]; exact h.inbytes
  obtain ⟨hcalls, hpoints⟩ := h.length_points hw
  have hindex := h.calls.index_eq
  have hbom := h.bom
  refine ⟨h.prevbytes, h.inbytes, (Calls.take_iff hw hn).mpr h.calls, fun c hc => ?_,
    fun w => stores_le, by omega⟩
  have hmem := List.mem_map_of_mem (f := Call.index) hc
  rw [hindex, List.mem_range'_1] at hmem
  omega

/-- On UTF-16 and UTF-32 input, whatever its bytes and wherever the reads cut it, `main` comes
to its end and no iteration reads or stores outside its bounds. -/
theorem mainRun_bounded (wishes : ℕ → ℕ) (u : Uninitialised) (stdin : List UInt8)
    {orig : Encoding} (hw : orig.wide = true) (dest : Encoding)
    (hsource : Detects wishes u stdin orig) :
    (∃ its last, MainRun dest wishes u stdin orig its last) ∧
      ∀ its last, MainRun dest wishes u stdin orig its last →
        last ≤ 3 ∧ ∀ it ∈ its, it.Bounded orig dest := by
  refine ⟨exists_mainRun dest hw hsource, fun its last h => ?_⟩
  obtain ⟨hlast, hsound⟩ := h.sound hw
  exact ⟨hlast, fun it hit => (hsound it hit).bounded hw dest⟩

/-- A word that is no code point, and three bytes of another one. -/
theorem mainRun_bounded_sample :
    (∃ its last, MainRun .utf8 (fun _ => 4) ⟨fun _ => 0, fun _ => 0⟩
      [0xFF, 0xFE, 0, 0, 0xFF, 0xFF, 0xFF, 0xFF, 0xFF, 0xFF, 0xFF] .utf32le its last) ∧
    ∀ its last, MainRun .utf8 (fun _ => 4) ⟨fun _ => 0, fun _ => 0⟩
      [0xFF, 0xFE, 0, 0, 0xFF, 0xFF, 0xFF, 0xFF, 0xFF, 0xFF, 0xFF] .utf32le its last →
      last ≤ 3 ∧ ∀ it ∈ its, it.Bounded .utf32le .utf8 :=
  mainRun_bounded _ _ _ rfl _ ⟨0xFF, 0xFE, 0, 0, rfl, rfl⟩

end Orga.Recode
