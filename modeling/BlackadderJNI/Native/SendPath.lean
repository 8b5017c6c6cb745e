import BlackadderJNI.Lib.Run
import Mathlib.Data.Finset.Insert

/-!
# The non-blocking send path of `NB_Blackadder`

Producers put messages into `output_queue`; the selector thread sends them.  One step is one
critical section under `selector_mutex`, or one statement of the selector's loop outside it.

* `enqueue`     the critical section at the end of `push` and of `publish_data`;
* `resume`, `spurious`   a producer that waits on `queue_overflow_cond`;
* `select`, `selectError`, `readPipe`, `receive`, `send`, `rearm`   the selector's loop;
* `Act`, `step` one label for each, with the choices of the environment: which descriptors
                are ready, what `sendmsg` returns, which waiting thread a signal wakes.
-/

namespace BA
namespace SendPath

inductive Fd where
  | sock
  | pipe
  deriving DecidableEq, Repr

abbrev Tid := Nat

/-- where the selector thread stands in the body of its loop; `undefined` is `front` on an empty
queue -/
inductive Pc where
  | select
  | testPipe
  | testRead
  | testWrite
  | rearm
  | undefined
  deriving DecidableEq, Repr

structure State (M : Type) where
  readSet : Finset Fd
  writeSet : Finset Fd
  /-- unread bytes in the pipe -/
  pipe : Nat
  outputQueue : List M
  pc : Pc
  /-- threads waiting on `queue_overflow_cond`, and threads woken that have not run yet -/
  waiting : List Tid
  woken : List Tid
  /-- the messages accepted by the socket -/
  wire : List M
  deriving DecidableEq

variable {M : Type}

def init : State M where
  readSet := {.sock, .pipe}
  writeSet := ∅
  pipe := 0
  outputQueue := []
  pc := .select
  waiting := []
  woken := []
  wire := []

/-! ## the producers -/

def enqueue (s : State M) (t : Tid) (msg : M) : Option (State M) :=
  if t ∈ s.waiting ∨ t ∈ s.woken then none
  else
    let outputQueue := s.outputQueue ++ [msg]
    some { s with
      outputQueue := outputQueue
      pipe := if outputQueue.length = 1 then s.pipe + 1 else s.pipe
      waiting := if outputQueue.length = 1000 then t :: s.waiting else s.waiting }

/-- `pthread_cond_wait` returns and the producer unlocks -/
def resume (s : State M) (t : Tid) : Option (State M) :=
  if t ∈ s.woken then some { s with woken := s.woken.erase t } else none

def spurious (s : State M) (t : Tid) : Option (State M) :=
  if t ∈ s.waiting then
    some { s with waiting := s.waiting.erase t, woken := t :: s.woken }
  else none

/-- `pthread_cond_signal`: one waiting thread is woken, if there is one -/
def signal (s : State M) (wake : Option Tid) : Option (State M) :=
  match wake with
  | none => if s.waiting = [] then some s else none
  | some t => spurious s t

/-! ## the selector -/

/-- `select` returns -1 -/
def selectError (s : State M) : Option (State M) :=
  if s.pc = .select then some s else none

/-- `select` leaves in the two sets the descriptors that are ready -/
def select (s : State M) (r w : Finset Fd) : Option (State M) :=
  if s.pc = .select ∧ r ⊆ s.readSet ∧ w ⊆ s.writeSet ∧ (r ≠ ∅ ∨ w ≠ ∅) ∧
      (.pipe ∈ r → 0 < s.pipe) then
    some { s with readSet := r, writeSet := w, pc := .testPipe }
  else none

/-- `if (FD_ISSET(pipe_fds[0], &read_set))`; `read` blocks on an empty pipe -/
def readPipe (s : State M) : Option (State M) :=
  if s.pc ≠ .testPipe then none
  else if .pipe ∈ s.readSet then
    if 0 < s.pipe then
      some { s with pipe := s.pipe - 1, writeSet := {.sock}, pc := .testRead }
    else none
  else some { s with pc := .testRead }

/-- `if (FD_ISSET(sock_fd, &read_set))`: touches nothing of the send path -/
def receive (s : State M) : Option (State M) :=
  if s.pc = .testRead then some { s with pc := .testWrite } else none

/-- the end of the critical section of `send` -/
def leave (s : State M) (wake : Option Tid) : Option (State M) :=
  if 0 < s.outputQueue.length then some { s with writeSet := {.sock}, pc := .rearm }
  else signal { s with writeSet := ∅, pc := .rearm } wake

/-- `if (FD_ISSET(sock_fd, &write_set))`, where `sendmsg` returns `ret` -/
def send (s : State M) (ret : Int) (wake : Option Tid) : Option (State M) :=
  if s.pc ≠ .testWrite then none
  else if .sock ∈ s.writeSet then
    match s.outputQueue with
    | [] => some { s with pc := .undefined }
    | msg :: rest =>
      if 0 < ret then leave { s with outputQueue := rest, wire := s.wire ++ [msg] } wake
      else leave s wake
  else some { s with pc := .rearm }

def rearm (s : State M) : Option (State M) :=
  if s.pc = .rearm then some { s with readSet := {.sock, .pipe}, pc := .select } else none

inductive Act (M : Type) where
  | enqueue (t : Tid) (msg : M)
  | resume (t : Tid)
  | spurious (t : Tid)
  | selectError
  | select (r w : Finset Fd)
  | readPipe
  | receive
  | send (ret : Int) (wake : Option Tid)
  | rearm

def step (s : State M) : Act M → Option (State M)
  | .enqueue t msg => enqueue s t msg
  | .resume t => resume s t
  | .spurious t => spurious s t
  | .selectError => selectError s
  | .select r w => select s r w
  | .readPipe => readPipe s
  | .receive => receive s
  | .send ret wake => send s ret wake
  | .rearm => rearm s

/-- the message a step puts into the queue -/
def Act.pushed : Act M → List M
  | .enqueue _ msg => [msg]
  | _ => []

/-- the message the socket accepts in a step -/
def accepted (s : State M) : Act M → Option M
  | .send ret _ =>
    if s.pc = .testWrite ∧ .sock ∈ s.writeSet ∧ 0 < ret then s.outputQueue.head? else none
  | _ => none

end SendPath
end BA
