import Mathlib.Algebra.Order.Ring.Nat
import Mathlib.Logic.Function.Basic
import Mathlib.Data.List.Nodup

/-!
# The pool of tasks

`m_tasks` is a stack of the tasks whose coroutine has nothing to do. `server_accept` takes one for
every connection, and the coroutine puts it back when the connection is over.

The descriptors that the kernel has open stand beside the pool. Three things are ghost: every
accepted descriptor gets a number (`Conn`), so that a descriptor is told apart from a later one of
the same value, `served` keeps the number that a task was given last, and `log` is what happened to
the descriptors, in order.
-/

namespace Easn

/-- `server_channel::MAX_ACCEPT_COUNT`. -/
def maxAcceptCount : Nat := 10

/-- A task of the pool. -/
abbrev TaskId := Fin maxAcceptCount

/-- Which accepted descriptor it is: the first, the second and so on. -/
abbrev Conn := Nat

/-- What happens to descriptors and tasks. `refused` is the message that the pool is full, and
`badClose` a `close` of a descriptor that is not open. -/
inductive PoolEvent
  | accepted (c : Conn) (fd : Int)
  | refused (c : Conn)
  | given (c : Conn) (task : TaskId)
  | closed (c : Conn)
  | returned (c : Conn) (task : TaskId)
  | badClose (fd : Int)
deriving DecidableEq

/-- The connection that an event is about. -/
def PoolEvent.conn : PoolEvent → Option Conn
  | .accepted c _ => some c
  | .refused c => some c
  | .given c _ => some c
  | .closed c => some c
  | .returned c _ => some c
  | .badClose _ => none

/-- What happened to one connection. -/
def lifeOf (log : List PoolEvent) (c : Conn) : List PoolEvent :=
  log.filter fun e => e.conn = some c

/-- The tasks, the stack of idle ones and the open descriptors. -/
structure TaskPool where
  fd : TaskId → Int
  mTasks : List TaskId
  openFds : Int → Option Conn
  accepted : Nat
  served : TaskId → Conn
  log : List PoolEvent

namespace TaskPool

/-- Before `init`. -/
def empty : TaskPool where
  fd _ := 0
  mTasks := []
  openFds _ := none
  accepted := 0
  served _ := 0
  log := []

def record (s : TaskPool) (e : PoolEvent) : TaskPool := { s with log := s.log ++ [e] }

/-- `close(fd)`. -/
def closeFd (s : TaskPool) (fd : Int) : TaskPool :=
  match s.openFds fd with
  | some c => { s with openFds := Function.update s.openFds fd none }.record (.closed c)
  | none => s.record (.badClose fd)

/-- `co_accept` has opened `connfd`. -/
def openFd (s : TaskPool) (connfd : Int) : TaskPool :=
  { s with
    openFds := Function.update s.openFds connfd (some s.accepted)
    accepted := s.accepted + 1 }.record (.accepted s.accepted connfd)

/-- `server_accept` gives `connfd` to the task on the top of the stack, or closes it. -/
def acceptFd (s : TaskPool) (connfd : Int) : TaskPool × Option TaskId :=
  let c := s.accepted
  let s := s.openFd connfd
  match s.mTasks with
  | [] => ((s.record (.refused c)).closeFd connfd, none)
  | task :: rest =>
    ({ s with
        fd := Function.update s.fd task connfd
        mTasks := rest
        served := Function.update s.served task c }.record (.given c task), some task)

/-- `task->fd = -1; m_tasks->push(task)`. -/
def returnTask (s : TaskPool) (task : TaskId) : TaskPool :=
  { s with
    fd := Function.update s.fd task (-1)
    mTasks := task :: s.mTasks }.record (.returned (s.served task) task)

/-- One task of `server_channel::init`. -/
def initTask (s : TaskPool) (task : TaskId) : TaskPool :=
  { s with
    fd := Function.update s.fd task (-1)
    mTasks := task :: s.mTasks }

/-- The pool after `server_channel::init`. -/
def init : TaskPool := (List.finRange maxAcceptCount).foldl initTask empty

/-- What `debug` prints as the number of connections. The subtraction is that of `size_t`. -/
def debug (s : TaskPool) : Nat := (maxAcceptCount + 2 ^ 64 - s.mTasks.length) % 2 ^ 64

/-- The tasks that serve a descriptor. -/
def busy (s : TaskPool) : List TaskId := (List.finRange maxAcceptCount).filter fun i => s.fd i ≠ -1

variable {s : TaskPool} {fd : Int} {c : Conn}

theorem lifeOf_append_singleton (log : List PoolEvent) (e : PoolEvent) (c : Conn) :
    lifeOf (log ++ [e]) c = lifeOf log c ++ if e.conn = some c then [e] else [] := by
  rw [lifeOf, List.filter_append, lifeOf]
  congr 1
  by_cases h : e.conn = some c <;> simp [h]

theorem closeFd_of_open (h : s.openFds fd = some c) : s.closeFd fd =
    { s with openFds := Function.update s.openFds fd none, log := s.log ++ [.closed c] } := by
  rw [closeFd, h]
  rfl

@[simp] theorem served_closeFd (s : TaskPool) (fd : Int) : (s.closeFd fd).served = s.served := by
  unfold closeFd
  split <;> rfl

/-- A connection that finds no idle task is closed at once. -/
theorem acceptFd_nil (h : s.mTasks = []) (connfd : Int) : s.acceptFd connfd =
    ({ s with
        openFds := Function.update s.openFds connfd none
        accepted := s.accepted + 1
        log := s.log ++ [.accepted s.accepted connfd] ++ [.refused s.accepted]
          ++ [.closed s.accepted] }, none) := by
  have hopen : ((s.openFd connfd).record (.refused s.accepted)).openFds connfd
      = some s.accepted := Function.update_self ..
  have htasks : (s.openFd connfd).mTasks = [] := h
  unfold acceptFd
  simp only [htasks, closeFd_of_open hopen]
  simp [openFd, record]

theorem acceptFd_cons {task : TaskId} {rest : List TaskId} (h : s.mTasks = task :: rest)
    (connfd : Int) : s.acceptFd connfd =
    ({ fd := Function.update s.fd task connfd
       mTasks := rest
       openFds := Function.update s.openFds connfd (some s.accepted)
       accepted := s.accepted + 1
       served := Function.update s.served task s.accepted
       log := s.log ++ [.accepted s.accepted connfd] ++ [.given s.accepted task] }, some task) := by
  have htasks : (s.openFd connfd).mTasks = task :: rest := h
  unfold acceptFd
  simp only [htasks]
  simp [openFd, record]

end TaskPool

end Easn
