import Sbnix.Library.Ring
import Sbnix.Library.Run

/-! The scheduler (`sys/sched.c`, `include/sys/list.h`, and the parts of `sys/fork.c`
and `sys/process.c` that touch its queues).

Tasks are on two circular lists, `runQueue` and `waitQueue`, through the `list_head` in
each `task_struct`. The running task is the last of `runQueue`; nothing else says which
one runs. Everything here works on the pointers of these lists as the source does.

A call that ends in `schedule` does not return to its caller if there is a task to
switch to: `sys_yield` loads that task's registers and leaves the kernel. -/
namespace Sbnix.Sched
open Library

/-- `uint16_t pid`. -/
abbrev Pid := BitVec 16
/-- `pid_t`. -/
abbrev PidT := BitVec 32

def nrTasks : Nat := 128
def sigkill : BitVec 32 := 9

/-- The places a `struct list_head` pointer can point to. -/
inductive Node where
  | null
  | runQueue
  | waitQueue
  | task (t : Nat)
  deriving DecidableEq, Repr

/-! ### `list.h` -/

abbrev Lists := Links Node

def listAdd (l : Lists) (new head : Node) : Lists := l.splice new head (l.next head)
def listAddTail (l : Lists) (new head : Node) : Lists := l.splice new (l.prev head) head
def listDelEntry (l : Lists) (entry : Node) : Lists := l.bridge (l.prev entry) (l.next entry)
def listDel (l : Lists) (entry : Node) : Lists := ((listDelEntry l entry).setNext entry .null).setPrev entry .null
def listMove (l : Lists) (list head : Node) : Lists := listAdd (listDelEntry l list) list head
def listMoveTail (l : Lists) (list head : Node) : Lists := listAddTail (listDelEntry l list) list head
def listEmpty (l : Lists) (head : Node) : Bool := l.next head = head

/-! ### The state -/

/-- Of a `task_struct` what the scheduler reads and writes. -/
structure Task where
  pid : Pid
  ppid : Pid
  isSleep : Bool
  sleepTime : BitVec 64
  deriving DecidableEq

structure State where
  links : Lists
  numTask : Nat
  task : Node → Task
  availPid : Pid
  /-- The number of `task_struct`s allocated so far. Their frames are never freed, so no
  two are at one place. -/
  top : Nat
  currentTask : Node
  nextTask : Node
  /-- The task whose registers `sys_yield` or `init_process` loaded last. -/
  running : Node

namespace State

def getNextTask (s : State) : Node := s.links.next .runQueue
def getCurrentTask (s : State) : Node := s.links.prev .runQueue

def addTasktoQueueHead (s : State) (task : Node) : Int × State :=
  if s.numTask + 1 > nrTasks then (-1, s)
  else (0, {s with links := listAdd s.links task .runQueue, numTask := s.numTask + 1})

def addTasktoQueue (s : State) (task : Node) : Int × State :=
  if s.numTask + 1 > nrTasks then (-1, s)
  else (0, {s with links := listAddTail s.links task .runQueue, numTask := s.numTask + 1})

/-- `list_for_each_entry` left at the first entry that passes a test. No queue has more
than `NR_TASKS` entries; the outer `none` is a walk that does not come back to the
head. -/
def listForEachEntry (s : State) (head : Node) (p : Node → Bool) : Option (Option Node) :=
  search s.links head p (nrTasks + 1) (s.links.next head)

def hasPid (s : State) (pid : PidT) (n : Node) : Bool := (s.task n).pid.setWidth 32 == pid

/-! ### The calls -/

/-- What a call returns, if it returns, and the state it leaves. -/
structure Result where
  ret : Option Int
  state : State

def awakepid (s : State) (pid : PidT) : Option State :=
  if listEmpty s.links .waitQueue then some s
  else (s.listForEachEntry .waitQueue (s.hasPid pid)).map fun
    | some process => {s with links := listMove s.links process .runQueue}
    | none => s

def schedule (s : State) : State :=
  if listEmpty s.links .runQueue then s
  else
    let nextTask := s.getNextTask
    let currentTask := s.getCurrentTask
    {s with nextTask, currentTask, links := listMoveTail s.links nextTask .runQueue, running := nextTask}

/-- `schedule(); return ret;`. -/
def scheduleThen (s : State) (ret : Int) : Result :=
  ⟨if listEmpty s.links .runQueue then some ret else none, s.schedule⟩

/-- `list_del(&process->tasks); num_task--;`. -/
def delTask (s : State) (process : Node) : State :=
  {s with links := listDel s.links process, numTask := s.numTask - 1}

def sysExit (s : State) : Option Result :=
  let process := s.getCurrentTask
  (s.awakepid ((s.task process).ppid.setWidth 32)).map fun s => (s.delTask process).scheduleThen (-1)

def sysSleep (s : State) (seconds : BitVec 64) : Result :=
  let proc := s.getCurrentTask
  let s := {s with task := Function.update s.task proc {s.task proc with isSleep := true, sleepTime := seconds}}
  {s with links := listMove s.links proc .waitQueue}.scheduleThen 0

def sysWaitpid (s : State) (pid : PidT) : Option Result :=
  let currentProc := s.getCurrentTask
  let block := {s with links := listMove s.links currentProc .waitQueue}.scheduleThen pid.toNat
  (s.listForEachEntry .runQueue (s.hasPid pid)).bind fun
    | some _ => some block
    | none => (s.listForEachEntry .waitQueue (s.hasPid pid)).map fun
      | some _ => block
      | none => ⟨some (-1), s⟩

/-- The two loops of `sys_kill` do the same to the entry they find. -/
def killTask (s : State) (process : Node) : Option Result :=
  (s.awakepid ((s.task process).ppid.setWidth 32)).map fun s => ⟨some 0, s.delTask process⟩

/-- A task that kills itself exits; if `sys_exit` came back, `sys_kill` would return the
same -1. -/
def sysKill (s : State) (pid : PidT) (sig : BitVec 32) : Option Result :=
  if sig = sigkill then
    if s.hasPid pid s.getCurrentTask then s.sysExit
    else (s.listForEachEntry .runQueue (s.hasPid pid)).bind fun
      | some process => s.killTask process
      | none => (s.listForEachEntry .waitQueue (s.hasPid pid)).bind fun
        | some process => s.killTask process
        | none => some ⟨some (-1), s⟩
  else some ⟨some (-1), s⟩

/-- A new zeroed `task_struct`. -/
def newTask (s : State) : Node × State :=
  let n := Node.task s.top
  (n, {s with top := s.top + 1, task := Function.update s.task n ⟨0, 0, false, 0⟩, links := (s.links.setNext n .null).setPrev n .null})

def setTask (s : State) (n : Node) (t : Task) : State := {s with task := Function.update s.task n t}

/-- What `create_process` does here: `process->pid=++avail_pid`. -/
def createProcess (s : State) : Node × State :=
  let process := s.newTask
  let s := process.2
  let s := {s with availPid := s.availPid + 1}
  (process.1, s.setTask process.1 {s.task process.1 with pid := s.availPid})

/-- The child is queued, if there is room, before it gets its pid. -/
def sysFork (s : State) : Result :=
  let pproc := s.getCurrentTask
  let cproc := s.newTask
  let s := (cproc.2.addTasktoQueueHead cproc.1).2
  let s := {s with availPid := s.availPid + 1}
  ⟨some s.availPid.toNat, s.setTask cproc.1 ⟨s.availPid, (s.task pproc).pid, false, 0⟩⟩

/-- The task that is to replace the caller of `sys_execve` takes over its pid and its
parent; the pid `create_process` has taken is given back, and the caller has no parent
to wake any more. -/
def execChild (s : State) : Node × State :=
  let execChild := s.createProcess
  let s := execChild.2
  let execParent := s.getCurrentTask
  let s := {s with availPid := s.availPid - 1}
  let s := s.setTask execChild.1 {s.task execChild.1 with pid := (s.task execParent).pid, ppid := (s.task execParent).ppid}
  (execChild.1, s.setTask execParent {s.task execParent with ppid := 0})

/-- `isFile` is what `check_file` says of the file name. -/
def sysExecve (s : State) (isFile : Bool) : Option Result :=
  if isFile then
    let execChild := s.execChild
    (execChild.2.addTasktoQueueHead execChild.1).2.sysExit.map fun r => {r with ret := r.ret.map fun _ => 0}
  else some ⟨some (-1), s⟩

/-! ### Boot -/

def initProcess (s : State) : State := {s with currentTask := s.getCurrentTask, running := s.getCurrentTask}

/-- `LIST_HEAD(runQueue); LIST_HEAD(waitQueue);` and nothing allocated. -/
def empty : State where
  links := ⟨fun n => if n = .runQueue ∨ n = .waitQueue then n else .null,
    fun n => if n = .runQueue ∨ n = .waitQueue then n else .null⟩
  numTask := 0
  task := fun _ => ⟨0, 0, false, 0⟩
  availPid := 0
  top := 0
  currentTask := .null
  nextTask := .null
  running := .null

/-- `addTasktoQueue(create_process(binary));`. -/
def addProcess (s : State) : State := (s.createProcess.2.addTasktoQueue s.createProcess.1).2

def idle : Node := .task 0

/-- After `init_process`: idle and sbush are queued, and sbush runs. -/
def boot : State := empty.addProcess.addProcess.initProcess

end State

/-! ### Runs -/

inductive Op where
  /-- `addTasktoQueueHead` of a fresh task. -/
  | add (pid ppid : Pid)
  | fork
  | execve (isFile : Bool)
  | exit
  | sleep (seconds : BitVec 64)
  | waitpid (pid : PidT)
  | awakepid (pid : PidT)
  | kill (pid : PidT) (sig : BitVec 32)
  /-- The timer, or a task that gives up the processor. -/
  | schedule
  deriving DecidableEq

/-- What an operation does. The calls work on the pointers as they are: with nothing on
`runQueue` they take its head for the task that makes them, and `schedule` returns to it. -/
def step (s : State) : Op → Option State
  | .add pid ppid => some ((s.newTask.2.setTask s.newTask.1 ⟨pid, ppid, false, 0⟩).addTasktoQueueHead s.newTask.1).2
  | .fork => some s.sysFork.state
  | .execve isFile => (s.sysExecve isFile).map State.Result.state
  | .exit => s.sysExit.map State.Result.state
  | .sleep seconds => some (s.sysSleep seconds).state
  | .waitpid pid => (s.sysWaitpid pid).map State.Result.state
  | .awakepid pid => s.awakepid pid
  | .kill pid sig => (s.sysKill pid sig).map State.Result.state
  | .schedule => some s.schedule

end Sbnix.Sched
