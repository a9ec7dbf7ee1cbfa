import Orga.Malloc.TraceFile
import Orga.Malloc.Utilization

/-! The loop of `main` in `mdriver.c` over the trace files. Timing, the printed lines and the
performance index, which is computed with doubles, are left out. -/
namespace Orga.Malloc
open Orga.Replay

/-- `stats_t`; `util` keeps what `eval_mm_util` divides. -/
structure Stats where
  ops : ℕ
  valid : Bool
  util : Option Utilization
  deriving DecidableEq, Repr

/-- Where the program ends early. -/
inductive Halt where
  | trace (e : TraceError)
  | stop (s : Stop)
  deriving DecidableEq, Repr

/-- `fsecs` without the clock: `ftimer_gettod` makes ten runs. -/
def fsecs (pkg : Package) (trace : Trace) (d : Mdriver) : Except Stop Mdriver :=
  timedSpeed pkg trace 10 d

/-- The body of the loop after `read_trace`, whose arrays of pointers and sizes are new. -/
def evalTrace (pkg : Package) (i : ℕ) (trace : Trace) (d : Mdriver) :
    Except Stop (Stats × Mdriver) := do
  let d := { d with blocks := fun _ => none, blockSizes := fun _ => none }
  let (valid, d) ← evalMmValid pkg trace i d
  if valid then
    let (util, d) ← evalMmUtil pkg trace d
    let d ← fsecs pkg trace d
    return (⟨trace.ops.length, true, some util⟩, d)
  else
    return (⟨trace.ops.length, false, none⟩, d)

/-- The loop over the files from the one with number `i` on. -/
def evalFiles (pkg : Package) : ℕ → List (List Char) → Mdriver → Except Halt (List Stats × Mdriver)
  | _, [], d => .ok ([], d)
  | i, file :: files, d => do
    let trace ← (readTrace file).mapError .trace
    let (stats, d) ← (evalTrace pkg i trace d).mapError .stop
    let (rest, d) ← evalFiles pkg (i + 1) files d
    return (stats :: rest, d)

def numcorrect (stats : List Stats) : ℕ := stats.countP Stats.valid

/-- The verdict on a trace in the arena of `h`. -/
def Trace.verdict (t : Trace) (h : Heap) : Option (ℕ × MallocError) :=
  Malloc.verdict h.machine 0 h.opening t.ops

/-- What the first-fit list says of a trace. -/
def Trace.stats (t : Trace) (h : Heap) : Stats :=
  match t.verdict h, h.machine.replay h.opening (t.ops.map TraceOp.request) with
  | none, some b => ⟨t.ops.length, true, some ⟨Int32.ofNat (h.machine.peak UInt64.toNat h.opening
      (t.ops.map TraceOp.request)), UInt64.ofNat (total b.heap + 32)⟩⟩
  | _, _ => ⟨t.ops.length, false, none⟩

section Errors
variable {pkg : Package} {trace : Trace} {op : TraceOp} {ops : List TraceOp} {t t' : Tally}
  {d d' : Mdriver}

theorem utilOp_errors (hrun : utilOp pkg trace op t = .ok t') :
    t'.driver.errors = t.driver.errors := by
  unfold utilOp at hrun
  cases htype : op.type with
  | alloc =>
    rw [htype] at hrun
    obtain ⟨⟨p, h⟩, -, hrun⟩ := bind_eq_ok hrun
    dsimp only at hrun
    split_ifs at hrun
    · cases hrun
    obtain ⟨k, -, hrun⟩ := bind_eq_ok hrun
    cases hrun
    rfl
  | realloc =>
    rw [htype] at hrun
    obtain ⟨k, -, hrun⟩ := bind_eq_ok hrun
    obtain ⟨n, -, hrun⟩ := bind_eq_ok hrun
    obtain ⟨p, -, hrun⟩ := bind_eq_ok hrun
    obtain ⟨⟨q, h⟩, -, hrun⟩ := bind_eq_ok hrun
    dsimp only at hrun
    split_ifs at hrun
    · cases hrun
    cases hrun
    rfl
  | free =>
    rw [htype] at hrun
    obtain ⟨k, -, hrun⟩ := bind_eq_ok hrun
    obtain ⟨n, -, hrun⟩ := bind_eq_ok hrun
    obtain ⟨p, -, hrun⟩ := bind_eq_ok hrun
    obtain ⟨h, -, hrun⟩ := bind_eq_ok hrun
    cases hrun
    rfl

theorem utilOps_errors (hrun : utilOps pkg trace ops t = .ok t') :
    t'.driver.errors = t.driver.errors := by
  induction ops generalizing t with
  | nil =>
    cases hrun
    rfl
  | cons op ops ih =>
    obtain ⟨t₁, hop, hrun⟩ := bind_eq_ok hrun
    rw [ih hrun, utilOp_errors hop]

theorem evalMmUtil_errors {u : Utilization} (hrun : evalMmUtil pkg trace d = .ok (u, d')) :
    d'.errors = d.errors := by
  obtain ⟨⟨r, h⟩, -, hrun⟩ := bind_eq_ok hrun
  dsimp only at hrun
  split_ifs at hrun
  · cases hrun
  obtain ⟨t, hops, hrun⟩ := bind_eq_ok hrun
  cases hrun
  exact utilOps_errors hops

theorem speedOp_errors (hrun : speedOp pkg trace op d = .ok d') : d'.errors = d.errors := by
  unfold speedOp at hrun
  cases htype : op.type with
  | alloc =>
    rw [htype] at hrun
    obtain ⟨⟨p, h⟩, -, hrun⟩ := bind_eq_ok hrun
    dsimp only at hrun
    split_ifs at hrun
    · cases hrun
    obtain ⟨k, -, hrun⟩ := bind_eq_ok hrun
    cases hrun
    rfl
  | realloc =>
    rw [htype] at hrun
    obtain ⟨k, -, hrun⟩ := bind_eq_ok hrun
    obtain ⟨p, -, hrun⟩ := bind_eq_ok hrun
    obtain ⟨⟨q, h⟩, -, hrun⟩ := bind_eq_ok hrun
    dsimp only at hrun
    split_ifs at hrun
    · cases hrun
    cases hrun
    rfl
  | free =>
    rw [htype] at hrun
    obtain ⟨k, -, hrun⟩ := bind_eq_ok hrun
    obtain ⟨p, -, hrun⟩ := bind_eq_ok hrun
    obtain ⟨h, -, hrun⟩ := bind_eq_ok hrun
    cases hrun
    rfl

theorem evalMmSpeed_errors (hrun : evalMmSpeed pkg trace d = .ok d') : d'.errors = d.errors := by
  have hops : ∀ {ops : List TraceOp} {d d' : Mdriver}, speedOps pkg trace ops d = .ok d' →
      d'.errors = d.errors := by
    intro ops
    induction ops with
    | nil =>
      intro d d' hrun
      cases hrun
      rfl
    | cons op ops ih =>
      intro d d' hrun
      obtain ⟨d₁, hop, hrun⟩ := bind_eq_ok hrun
      rw [ih hrun, speedOp_errors hop]
  obtain ⟨⟨r, h⟩, -, hrun⟩ := bind_eq_ok hrun
  dsimp only at hrun
  split_ifs at hrun
  · cases hrun
  exact (hops hrun).trans rfl

theorem timedSpeed_errors {n : ℕ} (hrun : timedSpeed pkg trace n d = .ok d') :
    d'.errors = d.errors := by
  induction n generalizing d with
  | zero =>
    cases hrun
    rfl
  | succ n ih =>
    obtain ⟨d₁, hspeed, hrun⟩ := bind_eq_ok hrun
    rw [ih hrun, evalMmSpeed_errors hspeed]

end Errors

section Run
variable {h : Heap} {d : Mdriver} {trace : Trace}

/-- One file, with the driver as any files before have left it. -/
theorem evalTrace_mm (i : ℕ) (hr : Ready h d.heap) (hwf : trace.WellFormed) :
    ∃ d', evalTrace mm i trace d = .ok (trace.stats h, d') ∧ Ready h d'.heap ∧
      d'.errors = d.errors ++ reports i (trace.verdict h) := by
  obtain ⟨r, h', hinit, hneg, hl⟩ := hr.mmInit
  obtain ⟨d₁, hvalid, herr, ⟨a, live, hl₁⟩, hend⟩ := evalMmValid_mirrors (t := i)
    (d := { d with blocks := fun _ => none, blockSizes := fun _ => none })
    (mm_implements _ _) hinit hneg hl hwf
  unfold evalTrace
  dsimp only
  rw [hvalid]
  cases hverdict : trace.verdict h with
  | some e =>
    have hstats : trace.stats h = ⟨trace.ops.length, false, none⟩ := by
      rw [Trace.stats, hverdict]
    have hfalse : (verdict h.machine 0 h.opening trace.ops).isNone = false := by
      rw [show verdict h.machine 0 h.opening trace.ops = some e from hverdict]
      rfl
    refine ⟨d₁, ?_, hl₁.ready, hverdict ▸ herr⟩
    rw [hstats, hfalse]
    rfl
  | none =>
    obtain ⟨b, hb, hm⟩ := hend hverdict
    have hc₁ : Completed h b d₁ := ⟨hm.follows⟩
    obtain ⟨u, d₂, hutil, hc₂, hsize, hpeak⟩ := hc₁.evalMmUtil hwf hb
    obtain ⟨d₃, hspeed, hc₃⟩ := hc₂.timedSpeed hwf hb 10
    have htrue : (verdict h.machine 0 h.opening trace.ops).isNone = true := by
      rw [show verdict h.machine 0 h.opening trace.ops = none from hverdict]
      rfl
    have hstats : trace.stats h = ⟨trace.ops.length, true, some u⟩ := by
      have hmax : Int32.ofNat (h.machine.peak UInt64.toNat h.opening
          (trace.ops.map TraceOp.request)) = u.maxTotalSize := by
        have hlt := u.maxTotalSize.toInt_lt
        rw [← Int32.toInt_inj, hpeak, Int32.toInt_ofNat_of_lt (by omega)]
      have hheap : UInt64.ofNat (total b.heap + 32) = u.heapsize := by
        rw [hsize, ← hc₂.memHeapsize, UInt64.ofNat_toNat]
      rw [Trace.stats, hverdict, hb]
      dsimp only
      rw [hmax, hheap]
    refine ⟨d₃, ?_, hc₃.follows.related.ready, ?_⟩
    · rw [hstats, htrue]
      dsimp only [bind, Except.bind]
      rw [if_pos rfl, hutil]
      dsimp only
      rw [fsecs, hspeed]
      rfl
    · rw [timedSpeed_errors hspeed, evalMmUtil_errors hutil, ← hverdict]
      exact herr

def reportsOf (h : Heap) : ℕ → List Trace → List Report
  | _, [] => []
  | i, t :: ts => reports i (t.verdict h) ++ reportsOf h (i + 1) ts

/-- Every file is judged as if it were the only one. -/
theorem evalFiles_ready {files : List (List Char)} {traces : List Trace}
    (hread : List.Forall₂ (fun s t => readTrace s = .ok t) files traces)
    (hwf : ∀ t ∈ traces, t.WellFormed) (i : ℕ) (hr : Ready h d.heap) :
    ∃ d', evalFiles mm i files d = .ok (traces.map (Trace.stats · h), d') ∧
      d'.errors = d.errors ++ reportsOf h i traces := by
  induction hread generalizing i d with
  | nil => exact ⟨d, rfl, (List.append_nil _).symm⟩
  | @cons file trace files traces hfile _ ih =>
    obtain ⟨ht, hwf⟩ := List.forall_mem_cons.mp hwf
    obtain ⟨d₁, hrun, hr₁, herr⟩ := evalTrace_mm i hr ht
    obtain ⟨d', hrun', herr'⟩ := ih hwf (i + 1) hr₁
    refine ⟨d', ?_, ?_⟩
    · rw [evalFiles, hfile]
      dsimp only [bind, Except.bind, Except.mapError]
      rw [hrun]
      dsimp only
      rw [hrun']
      rfl
    · rw [herr', herr, reportsOf, List.append_assoc]

theorem valid_stats (t : Trace) : (t.stats h).valid = (t.verdict h).isNone := by
  unfold Trace.stats
  cases hverdict : t.verdict h with
  | some e => rfl
  | none =>
    obtain ⟨hserved, -⟩ := verdict_eq_none_iff.mp hverdict
    obtain ⟨b, hb⟩ := Option.isSome_iff_exists.mp hserved
    rw [hb]
    rfl

theorem numcorrect_add_length (i : ℕ) (traces : List Trace) :
    numcorrect (traces.map (Trace.stats · h)) + (reportsOf h i traces).length = traces.length := by
  induction traces generalizing i with
  | nil => rfl
  | cons t traces ih =>
    have hrest := ih (i + 1)
    have hone : (if (t.stats h).valid then 1 else 0) + (reports i (t.verdict h)).length = 1 := by
      rw [valid_stats]
      cases t.verdict h <;> rfl
    rw [numcorrect] at hrest ⊢
    rw [List.map_cons, List.countP_cons, reportsOf, List.length_append, List.length_cons]
    omega

end Run

/-- The loop of `main` on files of well-formed traces ends normally. Each file is judged by the
first-fit list alone, whatever the files before it have done to the heap, and every file is either
correct or one error. -/
theorem evalFiles_mm {files : List (List Char)} {traces : List Trace} {d : Mdriver}
    (hread : List.Forall₂ (fun s t => readTrace s = .ok t) files traces)
    (hwf : ∀ t ∈ traces, t.WellFormed) (hA : Arena d.heap) (hf : FullArena d.heap)
    (herrors : d.errors = []) :
    ∃ d', evalFiles mm 0 files d = .ok (traces.map (Trace.stats · d.heap), d') ∧
      d'.errors = reportsOf d.heap 0 traces ∧
      numcorrect (traces.map (Trace.stats · d.heap)) + d'.errors.length = files.length := by
  obtain ⟨d', hrun, herr⟩ := evalFiles_ready hread hwf 0 ⟨hA, hf, rfl, rfl⟩
  rw [herrors, List.nil_append] at herr
  refine ⟨d', hrun, herr, ?_⟩
  rw [herr, hread.length_eq]
  exact numcorrect_add_length 0 traces

/-- A trace whose second request resizes a block whose name ends in the byte 200. -/
def alarmTrace : Trace := ⟨201, [⟨.alloc, 200, 40⟩, ⟨.realloc, 200, 10⟩]⟩

theorem evalFiles_sample :
    ∃ d', evalFiles mm 0 [alarmTrace.text 0 1, short1Bal.text 20000 1] sampleDriver =
        .ok ([⟨2, false, none⟩, ⟨12, true, some ⟨8144, 12320⟩⟩], d') ∧
      d'.errors = [⟨0, 6, .notPreserved⟩] := by
  have halarm : alarmTrace.Readable := ⟨by decide, by decide, by decide, by decide⟩
  have hshort : short1Bal.Readable := ⟨by decide, by decide, by decide, by decide⟩
  have hread : List.Forall₂ (fun s t => readTrace s = .ok t)
      [alarmTrace.text 0 1, short1Bal.text 20000 1] [alarmTrace, short1Bal] :=
    .cons (readTrace_text halarm 0 1) (.cons (readTrace_text hshort 20000 1) .nil)
  obtain ⟨d', hrun, herr, -⟩ := @evalFiles_mm _ _ sampleDriver hread (by decide)
    arena_sampleArena (by decide) rfl
  have hstats : [alarmTrace, short1Bal].map (Trace.stats · sampleDriver.heap) =
      [⟨2, false, none⟩, ⟨12, true, some ⟨8144, 12320⟩⟩] := by decide +kernel
  have hreports : reportsOf sampleDriver.heap 0 [alarmTrace, short1Bal] =
      [⟨0, 6, .notPreserved⟩] := by decide +kernel
  exact ⟨d', hstats ▸ hrun, herr.trans hreports⟩

end Orga.Malloc
