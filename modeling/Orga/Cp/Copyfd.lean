import Orga.Cp.Writeall

/-! `copyfd` of `cp57.c`: it reads into a buffer and writes the buffer out with `writeall`, until
end of file. `writeall` is taken at its header's word: `0` when all was written, otherwise the
number of bytes written. -/
namespace Orga.Cp
open Orga.Loop

/-- What a call of `read` does; a successful call leaves `errno` alone. -/
inductive ReadResult where
  | got (n : ℕ)
  | fails (errno : ℕ)
  deriving DecidableEq

/-- What a call of `writeall` does. A complete one leaves `errno` alone unless one of its writes
was interrupted. -/
inductive WriteallResult where
  | complete (interrupted : Bool)
  | incomplete (n errno : ℕ)
  deriving DecidableEq

/-- The two descriptors: what `fdin` holds, and the result of each call. `most` is the number of
bytes that a call of `read` can get, `count` the number that `writeall` is asked for. -/
structure Descriptors where
  content : List UInt8
  read : ℕ → ℕ → ReadResult
  writeall : ℕ → ℕ → WriteallResult
  got_le : ∀ call most n, read call most = .got n → n ≤ most ∧ (n = 0 → most = 0)
  incomplete_lt : ∀ call count n e, writeall call count = .incomplete n e → n < count ∧ e ≠ eintr

inductive Event where
  | read (bytes : List UInt8)
  | readFailure (errno : ℕ)
  | written (bytes : List UInt8)
  | incomplete (bytes : List UInt8)
  deriving DecidableEq

/-- A failure that `copyfd` should stop at, a `writeall` that wrote nothing included. -/
def Event.Stops : Event → Prop
  | .readFailure e => e ≠ eintr
  | .incomplete _ => True
  | .read _ | .written _ => False

/-- The variables of `copyfd` at the head of its loop, with `buf` as the memory from `buf` on, and
what has happened so far: the calls made, what `fdin` still holds, and the events. -/
structure Copy where
  errno : ℕ
  bytesRead : ℤ
  count : ℕ
  buf : ℕ → UInt8
  rest : List UInt8
  reads : ℕ
  writes : ℕ
  events : List Event

structure CopyReturn where
  value : ℕ
  events : List Event

/-- The conversion of the argument of `writeall` to `size_t`. -/
def toSize (n : ℤ) : ℕ := (n % 2 ^ 64).toNat

def fill (buf : ℕ → UInt8) (bytes : List UInt8) : ℕ → UInt8 := fun i => bytes.getD i (buf i)

def bytesOf (buf : ℕ → UInt8) (n : ℕ) : List UInt8 := (List.range n).map buf

section Code
variable (d : Descriptors) (size : UInt64)

/-- `bytes_read = read(fdin, buf, size)` -/
def Copy.read (s : Copy) : Copy :=
  match d.read s.reads (min size.toNat s.rest.length) with
  | .got n =>
    { s with
      bytesRead := n
      buf := fill s.buf (s.rest.take n)
      rest := s.rest.drop n
      reads := s.reads + 1
      events := s.events ++ [.read (s.rest.take n)] }
  | .fails e =>
    { s with
      bytesRead := -1
      errno := e
      reads := s.reads + 1
      events := s.events ++ [.readFailure e] }

/-- `bytes_written = writeall(fdout, buf, bytes_read)`, with what it returns. -/
def Copy.writeall (s : Copy) : ℕ × Copy :=
  let count := toSize s.bytesRead
  match d.writeall s.writes count with
  | .complete interrupted =>
    (0, { s with
      errno := if interrupted then eintr else s.errno
      writes := s.writes + 1
      events := s.events ++ [.written (bytesOf s.buf count)] })
  | .incomplete n e =>
    (n, { s with
      errno := e
      writes := s.writes + 1
      events := s.events ++ [.incomplete (bytesOf s.buf n)] })

/-- The end of the body of the loop, and its condition. -/
def Copy.readOn (s : Copy) : Copy ⊕ CopyReturn :=
  let s := s.read d size
  if s.bytesRead ≠ 0 then .inl s else .inr ⟨0, s.events⟩

def copyfdStep (s : Copy) : Copy ⊕ CopyReturn :=
  if s.errno ≠ eintr then
    let (bytesWritten, s) := s.writeall d
    let s := { s with count := s.count + bytesWritten }
    s.readOn d size
  else if s.errno ≠ 0 ∧ s.errno ≠ eintr then
    .inr ⟨s.count, s.events⟩
  else
    s.readOn d size

/-- The state at the first head of the loop: `errno` cleared and one call of `read`. -/
def Copy.start (buf : ℕ → UInt8) : Copy :=
  Copy.read d size ⟨0, 0, 0, buf, d.content, 0, 0, []⟩

def Copyfd (buf : ℕ → UInt8) (r : CopyReturn) : Prop :=
  Returns (copyfdStep d size) (Copy.start d size buf) r

end Code

def bytesIn (events : List Event) : List UInt8 :=
  events.flatMap fun
    | .read bytes => bytes
    | _ => []

def bytesOut (events : List Event) : List UInt8 :=
  events.flatMap fun
    | .written bytes | .incomplete bytes => bytes
    | _ => []

/-- What `copyfd` promises: at end of file without a failure but `EINTR` it has copied all and
returns `0`, and after any other failure it stops with the number of bytes written. -/
structure CopyReturn.Kept (r : CopyReturn) : Prop where
  copied : .read [] ∈ r.events → (∀ e ∈ r.events, ¬ e.Stops) →
    r.value = 0 ∧ bytesOut r.events = bytesIn r.events
  stopped : ∀ before e after, r.events = before ++ e :: after → e.Stops →
    after = [] ∧ r.value = (bytesOut r.events).length

/-- No failure but `EINTR`, and all that was read has been written. -/
def Balanced (events : List Event) : Prop :=
  (∀ e ∈ events, ¬ e.Stops) ∧ bytesOut events = bytesIn events

/-- A return at end of file keeps the promise exactly when its events do: a failure before it
would have been the last event. -/
theorem kept_iff (events : List Event) :
    CopyReturn.Kept ⟨0, events ++ [.read []]⟩ ↔ Balanced (events ++ [.read []]) := by
  constructor
  · rintro ⟨hcopied, hstopped⟩
    have hclean : ∀ e ∈ events ++ [.read []], ¬ e.Stops := by
      intro e he hstops
      obtain ⟨before, after, hsplit⟩ := List.append_of_mem he
      obtain ⟨rfl, -⟩ := hstopped before e after hsplit hstops
      obtain ⟨-, hlast⟩ := List.append_inj' hsplit rfl
      cases hlast
      exact hstops
    exact ⟨hclean, (hcopied (by simp) hclean).2⟩
  · rintro ⟨hclean, hsame⟩
    refine ⟨fun _ _ => ⟨rfl, hsame⟩, fun before e after hsplit hstops => ?_⟩
    have hsplit : events ++ [.read []] = before ++ e :: after := hsplit
    exact absurd hstops (hclean e (by rw [hsplit]; simp))

section Script
variable (d : Descriptors) (size : UInt64)

def Descriptors.left : ℕ → List UInt8
  | 0 => d.content
  | i + 1 =>
    match d.read i (min size.toNat (Descriptors.left i).length) with
    | .got n => (Descriptors.left i).drop n
    | .fails _ => Descriptors.left i

def Descriptors.reading (i : ℕ) : ReadResult := d.read i (min size.toNat (d.left size i).length)

def Descriptors.Interrupted (i : ℕ) : Prop :=
  d.reading size i = .fails eintr ∨
    ∃ n, d.reading size i = .got n ∧ d.writeall i n = .complete true

/-- After the call `i` every call of `read` is interrupted, up to the end of file at the call
`e`. -/
structure Descriptors.Quiet (i e : ℕ) : Prop where
  lt : i < e
  eof : d.reading size e = .got 0
  interrupted : ∀ j, i < j → j < e → d.reading size j = .fails eintr

/-- From the call `i` on, up to the end of file at the call `e`, every call of `read` is
interrupted or its bytes are written, and after an interruption no call gets bytes. -/
structure Descriptors.Smooth (i e : ℕ) : Prop where
  lt : i < e
  eof : d.reading size e = .got 0
  first : ∀ j, i < j → j < e → d.reading size j ≠ .got 0
  served : ∀ j, i ≤ j → j < e → d.reading size j = .fails eintr ∨
    ∃ n b, d.reading size j = .got n ∧ d.writeall j n = .complete b
  quiet : ∀ j k, i ≤ j → j < k → k < e → d.Interrupted size j → d.reading size k = .fails eintr

end Script

end Orga.Cp
