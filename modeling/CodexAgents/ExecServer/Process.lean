import CodexAgents.Lib.Text

/-!
# The events of a process on the server

`exec-server/src/local_process.rs`.  Output, exit and close of a process share one counter.
The output is retained for clients that read it later (`exec_read`), up to a bound: old chunks are
evicted.  The answer to a read has the retained chunks, and says whether the process has exited and
whether it is closed, but not which numbers these two events had.

Two tasks stream the output and one waits for the exit; what they do under the lock is a step each.
-/

namespace ExecServer

open Text

/-- What a process reads and writes. -/
abbrev Bytes := List UInt8

/-- Where an output comes from. -/
inductive ExecOutputStream where
  | stdout
  | stderr
  | pty
  deriving DecidableEq

/-- An output and its number. -/
structure ProcessOutputChunk where
  seq : Nat
  stream : ExecOutputStream
  chunk : Bytes
  deriving DecidableEq

/-- What happens to a process. -/
inductive ExecProcessEvent where
  | output (chunk : ProcessOutputChunk)
  | exited (seq : Nat) (exitCode : Int) (sandboxDenied : Option Bool)
  | closed (seq : Nat)
  | failed (message : Str)
  deriving DecidableEq

namespace ExecProcessEvent

/-- The number of an event, which a failure does not have. -/
def seq : ExecProcessEvent → Option Nat
  | output chunk => some chunk.seq
  | exited seq _ _ | closed seq => some seq
  | failed _ => none

/-- The process has exited. -/
def isExited : ExecProcessEvent → Bool
  | exited _ _ _ => true
  | _ => false

/-- No more output comes. -/
def isClosed : ExecProcessEvent → Bool
  | closed _ => true
  | _ => false

end ExecProcessEvent

/-! ## A running process -/

/-- How many bytes of output are kept. -/
def retainedOutputBytesPerProcess : Nat := 1024 * 1024

/-- How many chunks of output are kept. -/
def retainedOutputChunksPerProcess : Nat := 50000

/-- How the sandbox of a process, if there is one, judges its exit code and its output. -/
structure Env where
  sandboxed : Bool
  isLikelySandboxDenied : Int → List ProcessOutputChunk → Bool

/-- The events are those that were published, all of them. -/
structure RunningProcess where
  output : List ProcessOutputChunk := []
  retainedBytes : Nat := 0
  nextSeq : Nat := 1
  exitCode : Option Int := none
  openStreams : Nat := 2
  closed : Bool := false
  sandboxDenied : Bool := false
  events : List ExecProcessEvent := []

/-- The oldest chunks go until the rest fits. -/
def evict : List ProcessOutputChunk → Nat → List ProcessOutputChunk × Nat
  | [], bytes => ([], bytes)
  | chunk :: output, bytes =>
    if retainedOutputBytesPerProcess < bytes ∨
        retainedOutputChunksPerProcess < (chunk :: output).length then
      evict output (bytes - chunk.chunk.length)
    else (chunk :: output, bytes)

namespace RunningProcess

variable (p : RunningProcess)

/-- One turn of the loop of `stream_output`. -/
def streamOutput (stream : ExecOutputStream) (chunk : Bytes) : RunningProcess :=
  let out : ProcessOutputChunk := ⟨p.nextSeq, stream, chunk⟩
  let (output, retainedBytes) := evict (p.output ++ [out]) (p.retainedBytes + chunk.length)
  { p with
    nextSeq := p.nextSeq + 1, output, retainedBytes,
    events := p.events ++ [.output out] }

/-- The process exits. -/
def watchExit (env : Env) (exitCode : Int) : RunningProcess :=
  let sandboxDenied :=
    if env.sandboxed then env.isLikelySandboxDenied exitCode p.output else p.sandboxDenied
  { p with
    nextSeq := p.nextSeq + 1, exitCode := some exitCode, sandboxDenied,
    events := p.events ++ [.exited p.nextSeq exitCode (some sandboxDenied)] }

/-- One of its streams ends. -/
def finishOutputStream : RunningProcess :=
  if 0 < p.openStreams then { p with openStreams := p.openStreams - 1 } else p

/-- It is closed once it has exited and all streams have ended. -/
def maybeEmitClosed : RunningProcess :=
  if p.closed ∨ p.openStreams ≠ 0 ∨ p.exitCode.isNone then p
  else
    { p with closed := true, nextSeq := p.nextSeq + 1, events := p.events ++ [.closed p.nextSeq] }

end RunningProcess

/-! ## Reading -/

/-- The answer to a read. -/
structure ReadResponse where
  chunks : List ProcessOutputChunk
  nextSeq : Nat
  exited : Bool
  exitCode : Option Int
  closed : Bool
  failure : Option Str
  sandboxDenied : Bool

/-- The largest value of a `usize`. -/
def usizeMax : Nat := 2 ^ 64 - 1

/-- The chunks of an answer, the first of them in any case.  `total` is the size of those that the
answer has already, `first` that it has none. -/
def readChunks (maxBytes : Nat) : Bool → Nat → List ProcessOutputChunk → List ProcessOutputChunk
  | _, _, [] => []
  | first, total, retained :: output =>
    if !first ∧ maxBytes < total + retained.chunk.length then []
    else
      retained ::
        if maxBytes ≤ total + retained.chunk.length then []
        else readChunks maxBytes false (total + retained.chunk.length) output

/-- `exec_read`, once it does not wait any longer. -/
def RunningProcess.execRead (p : RunningProcess) (afterSeq maxBytes : Option Nat) : ReadResponse :=
  let chunks := readChunks (maxBytes.getD usizeMax) true 0
    (p.output.filter fun chunk => afterSeq.getD 0 < chunk.seq)
  { chunks
    nextSeq :=
      if maxBytes.isNone then p.nextSeq else (chunks.getLast?.map (·.seq + 1)).getD p.nextSeq
    exited := p.exitCode.isSome
    exitCode := p.exitCode
    closed := p.closed
    failure := none
    sandboxDenied := p.sandboxDenied }

end ExecServer
