import TwoKernel.Std.SingleDeque

/-!
# Threads, processes, and the machine a scheduler drives

`ThreadBlock` and `ProcessBlock` hold what the scheduler, the process table and
the fault handlers read and write. Three types are left open: `P` is the
address of a thread block, `Q` the address of a process block, and `F` the
saved register frame, which the scheduler copies and never looks into.

The link members of a thread (`hook`, `proc_hook`) are kept apart from the
block, as maps over all threads: that is how the deques see them.

`Core` is everything the scheduler works on except its two queues: the blocks,
the lock counters and flags, `curr_thread`, and the processor state it sets
(`cr3`, `tss.rsp0`, the syscall stack slot, the interrupt flag) together with
the timer it reads.
-/

namespace TwoKernel

variable {P Q F : Type} [DecidableEq P]

inductive ThreadState where
  | ready | running | blocked | sleep
  deriving DecidableEq, Repr

/-- `DEFAULT_SCHEDULE_TIME_MS`. -/
def defaultScheduleTimeMs : Word := 6

/-- `DEFAULT_TIME_QUANTUM`. -/
def defaultTimeQuantum : Word := 100

structure ThreadBlock (Q F : Type) where
  rsp0 : Word
  state : ThreadState
  registers : F
  execStartMs : Word
  totalRuntimeMs : Word
  scheduledTime : Word
  sleepTime : Word
  mProcess : Q

inductive ProcStats where
  | ready | running | blocked | sleep | zombie | dead
  deriving DecidableEq, Repr

structure ProcessBlock (P Q : Type) where
  threads : SingleDeque P
  parent : Option Q
  /-- `address_space.page_dir.pml4_pa`. -/
  pml4Pa : Word
  status : ProcStats
  isUser : Bool
  isZombie : Bool
  exitStatus : BitVec 32
  threadSize : BitVec 8

namespace ThreadBlock

/-- The constructor, once `init_kernel_stack` has set `rsp0` and the entry frame is filled in. -/
def construct (rsp0 : Word) (registers : F) (process : Q) : ThreadBlock Q F where
  rsp0 := rsp0
  state := .ready
  registers := registers
  execStartMs := 0
  totalRuntimeMs := 0
  scheduledTime := defaultScheduleTimeMs
  sleepTime := 0
  mProcess := process

def resetScheduledTime (t : ThreadBlock Q F) : ThreadBlock Q F :=
  { t with scheduledTime := defaultScheduleTimeMs }

def updateScheduledTime (ms : Word) (t : ThreadBlock Q F) : ThreadBlock Q F :=
  { t with scheduledTime := ms }

end ThreadBlock

/-- The constructor over a fresh `pml4_pa`. The members it leaves unset read as zero. -/
def ProcessBlock.construct (pml4Pa : Word) (isUser : Bool) : ProcessBlock P Q where
  threads := {}
  parent := none
  pml4Pa := pml4Pa
  status := .ready
  isUser := isUser
  isZombie := false
  exitStatus := 0
  threadSize := 0

/-- The scheduler's state without its queues, and the processor state it sets. -/
structure Core (P Q F : Type) where
  thread : P → ThreadBlock Q F
  process : Q → ProcessBlock P Q
  procHook : Hooks P
  disableCounter : BitVec 8
  taskSwitchCounter : BitVec 8
  taskSwitchPostponed : Bool
  timeQuantumPast : Bool
  currThread : Option P
  idleThread : P
  cr3 : Word
  tssRsp0 : Word
  syscallKernelRsp : Word
  interruptFlag : Bool
  tick : Word
  pitClocks : Word

namespace Core

/-- `Drivers::Pit::RELOAD`, the PIT clocks of one tick. -/
def reload : Word := 1193

/-- `Drivers::Pit::increase_tick`. -/
def increaseTick (c : Core P Q F) : Core P Q F :=
  { c with tick := c.tick + 1, pitClocks := c.pitClocks + reload }

/-- `Drivers::Pit::get_time_milliseconds`, at a `FREQUENCY` of 1000 Hz. -/
def getTimeMilliseconds (c : Core P Q F) : Word := (c.tick * 1000) / 1000

/-- Write some members of one thread block. -/
def modify (t : P) (f : ThreadBlock Q F → ThreadBlock Q F) (c : Core P Q F) : Core P Q F :=
  { c with thread := Function.update c.thread t (f (c.thread t)) }

def setState (t : P) (st : ThreadState) : Core P Q F → Core P Q F :=
  modify t fun b => { b with state := st }

/-- `tss.rsp0 = t->rsp0; bsp_cpu.syscall_kernel_rsp = tss.rsp0`. -/
def loadStack (t : P) (c : Core P Q F) : Core P Q F :=
  { c with tssRsp0 := (c.thread t).rsp0, syscallKernelRsp := (c.thread t).rsp0 }

/-- `load_cr3(t->m_process->address_space.page_dir.pml4_pa)`. -/
def loadCr3 (t : P) (c : Core P Q F) : Core P Q F :=
  { c with cr3 := (c.process (c.thread t).mProcess).pml4Pa }

/-- `curr_thread = t; curr_thread->exec_start_ms = get_time_milliseconds()`. -/
def enter (t : P) (c : Core P Q F) : Core P Q F :=
  modify t (fun b => { b with execStartMs := c.getTimeMilliseconds }) { c with currThread := some t }

def lockScheduler (c : Core P Q F) : Core P Q F :=
  { c with
    interruptFlag := false
    disableCounter := c.disableCounter + 1
    taskSwitchCounter := c.taskSwitchCounter + 1 }

/-- `task_switch_counter--`. -/
def leaveSwitch (c : Core P Q F) : Core P Q F :=
  { c with taskSwitchCounter := c.taskSwitchCounter - 1 }

/-- `disable_counter--`, and `sti` when it reaches zero. -/
def leaveDisable (c : Core P Q F) : Core P Q F :=
  { c with
    disableCounter := c.disableCounter - 1
    interruptFlag := if c.disableCounter - 1 = 0 then true else c.interruptFlag }

def setPostponed (b : Bool) (c : Core P Q F) : Core P Q F := { c with taskSwitchPostponed := b }

def setQuantumPast (b : Bool) (c : Core P Q F) : Core P Q F := { c with timeQuantumPast := b }

/-- The block of a thread that enters the ready queue with a fresh budget. -/
def markReady (t : P) (c : Core P Q F) : Core P Q F :=
  (c.setState t .ready).modify t .resetScheduledTime

/-- The block of a thread that starts to sleep. -/
def markSleep (t : P) (milli : Word) : Core P Q F → Core P Q F :=
  modify t fun b => { b with sleepTime := milli, state := .sleep }

/-- The block of a thread that is woken. -/
def markWoken (t : P) : Core P Q F → Core P Q F :=
  modify t fun b => { b with sleepTime := 0, state := .ready }

/-- `sleep_time -= 1` when it is positive. -/
def countDown (t : P) : Core P Q F → Core P Q F :=
  modify t fun b => if 0 < b.sleepTime then { b with sleepTime := b.sleepTime - 1 } else b

/-- The quantum branch of `schedule()`: the current thread pays a whole quantum out of its
budget, and a budget that reaches zero starts over. -/
def payQuantum (cur : P) : Core P Q F → Core P Q F :=
  modify cur fun b =>
    let b := { b with scheduledTime := b.scheduledTime - defaultTimeQuantum }
    if b.scheduledTime = 0 then b.resetScheduledTime else b

/-- The tail of `switch_task`: the stacks and the address space of `next`, then `curr_thread`.
The switch to the idle thread touches neither. -/
def dispatch [DecidableEq Q] (cur next : P) (c : Core P Q F) : Core P Q F :=
  if next = c.idleThread then c.enter next
  else if (c.thread next).mProcess ≠ (c.thread cur).mProcess then
    ((c.loadStack next).loadCr3 next).enter next
  else (c.loadStack next).enter next

/-- The bookkeeping of a tick before the sleepers: save the frame, charge one millisecond. -/
def saveFrame (cur : P) (frame : F) : Core P Q F → Core P Q F :=
  modify cur fun b => { b with registers := frame, totalRuntimeMs := b.totalRuntimeMs + 1 }

/-- Milliseconds the current thread has held the processor. -/
def delta (cur : P) (c : Core P Q F) : Word := c.getTimeMilliseconds - (c.thread cur).execStartMs

end Core

end TwoKernel
