import Mycrokernel.Lib.PointerList
import Mycrokernel.Kernel.Const

/-!
# The scheduler

The run queue of `utilities_C.c`: a doubly linked list of processes in the order
of their shares (`schedticks`), with the totals of the shares and of the ticks
that are left, and the virtual-time round-robin pick over it.

`Sched` holds the variables these functions touch: the scheduling fields of the
`tss_t` records, `schedqueue`, `curptr` and `nextptr`.  `tickLog` is a history
variable: it records the counter arithmetic done so far and no function reads it.

The two loops, the walk of `enqueue` to the place of a process and the
`do`-`while` of `dequeue`, run on fuel.  `none` means that the C loop has not
ended by then.
-/

namespace Mycrokernel

open Function (update)
open PointerList (walk)

/-- `schedqueue_t`. -/
structure SchedQueue where
  /-- The first process of the queue. -/
  head : Ptr
  ticksleft : Word
  schedticks : Word
deriving DecidableEq

/-- A piece of tick arithmetic, with the counters it started from. -/
inductive TickOp where
  /-- `charge_process` took a tick from this process and from the queue. -/
  | charge (process : Ptr) (ticksleft queueTicksleft : Word)
  /-- `enqueue` computed the ticks a returning process of this share gets. -/
  | catchUp (schedticks queueSchedticks queueTicksleft : Word)
deriving DecidableEq

/-- The variables of the scheduler. -/
structure Sched where
  next : Ptr → Ptr
  previous : Ptr → Ptr
  schedticks : Ptr → Word
  ticksleft : Ptr → Word
  misc : Ptr → BitVec 8
  schedqueue : SchedQueue
  curptr : Ptr
  nextptr : Ptr
  /-- History: the tick arithmetic done so far, the latest first. -/
  tickLog : List TickOp

namespace Sched

variable [Layout]

/-- `process->misc & ENQUEUED`. -/
def isEnqueued (s : Sched) (p : Ptr) : Bool := s.misc p &&& Flag.enqueued != 0

/-! ## Entering the queue -/

/-- `processEligibleFirst(p)`. -/
def processEligibleFirst (s : Sched) (p : Ptr) : Bool :=
  if s.schedqueue.head = null then false
  else s.schedticks s.schedqueue.head ≤ s.schedticks p

/-- `processEligibleLast(p)`. -/
def processEligibleLast (s : Sched) (p : Ptr) : Bool :=
  if s.previous p = null then false
  else if !s.isEnqueued (s.previous p) then false
  else s.next (s.previous p) = null

/-- `previousValid(p)`. -/
def previousValid (s : Sched) (p : Ptr) : Bool :=
  if s.previous p = null then s.processEligibleFirst p
  else if !s.isEnqueued (s.previous p) then false
  else if s.next (s.previous p) ≠ s.next p then false
  else s.schedticks p ≤ s.schedticks (s.previous p)

/-- `nextValid(p)`. -/
def nextValid (s : Sched) (p : Ptr) : Bool :=
  if s.next p = null then s.processEligibleLast p
  else if !s.isEnqueued (s.next p) then false
  else if s.previous (s.next p) ≠ s.previous p then false
  else s.schedticks (s.next p) ≤ s.schedticks p

/-- `lastNeighboursValid(p)`. -/
def lastNeighboursValid (s : Sched) (p : Ptr) : Bool :=
  if s.previous p = null ∧ s.next p = null then false
  else if !s.previousValid p then false
  else s.nextValid p

/-- The fast path of `enqueue`: back between the neighbours the process left. -/
def relink (s : Sched) (process : Ptr) : Sched :=
  let s :=
    if s.previous process ≠ null then
      { s with next := update s.next (s.previous process) process }
    else { s with schedqueue := { s.schedqueue with head := process } }
  if s.next process ≠ null then
    { s with previous := update s.previous (s.next process) process }
  else s

/-- The test that ends the loop of `enqueue`. -/
def placeFound (s : Sched) (process cur : Ptr) : Bool :=
  !(cur ≠ null ∧ s.schedticks process < s.schedticks cur)

/-- The slow path of `enqueue`: in front of the first process with no larger share. -/
def insert (s : Sched) (process : Ptr) : Option Sched :=
  let s := { s with previous := update s.previous process null }
  let s := { s with next := update s.next process null }
  (walk s.next (s.placeFound process) walkFuel null s.schedqueue.head).map fun (previous, cur) =>
    let s := { s with next := update s.next process cur }
    let s := { s with previous := update s.previous process previous }
    let s := if cur ≠ null then { s with previous := update s.previous cur process } else s
    if previous = null then { s with schedqueue := { s.schedqueue with head := process } }
    else { s with next := update s.next previous process }

/-- The end of `enqueue`: the ticks the process still gets in this cycle, and the totals. -/
def catchUp (s : Sched) (process : Ptr) : Sched :=
  let queue := s.schedqueue
  let share := s.schedticks process
  let s :=
    if queue.schedticks = 0 then { s with ticksleft := update s.ticksleft process share }
    else
      let count1 := share - (queue.schedticks - queue.ticksleft) * share / queue.schedticks
      let count2 := s.ticksleft process
      { s with
        ticksleft := update s.ticksleft process (if count1 < count2 then count1 else count2)
        tickLog := .catchUp share queue.schedticks queue.ticksleft :: s.tickLog }
  { s with schedqueue := {
      head := queue.head
      ticksleft := queue.ticksleft + s.ticksleft process
      schedticks := queue.schedticks + share } }

/-- `enqueue`. -/
def enqueue (s : Sched) (process : Ptr) : Option Sched :=
  if s.isEnqueued process then some s
  else
    let s := { s with misc := update s.misc process (s.misc process ||| Flag.enqueued) }
    (if s.lastNeighboursValid process then some (s.relink process)
      else s.insert process).map fun s => s.catchUp process

/-! ## Picking the next process -/

/-- `charge_process`. -/
def chargeProcess (s : Sched) : Sched :=
  if s.curptr = idlestate then s
  else
    { s with
      ticksleft := update s.ticksleft s.curptr (s.ticksleft s.curptr - 1)
      schedqueue := { s.schedqueue with ticksleft := s.schedqueue.ticksleft - 1 }
      tickLog := .charge s.curptr (s.ticksleft s.curptr) s.schedqueue.ticksleft :: s.tickLog }

/-- `vft_numerator(x)`, for the two counters of `x`. -/
def vftNumerator (schedticks ticksleft : Word) : Word := schedticks - ticksleft + 1

/-- `vtrr_is_eligible(p,q)`, an unsigned comparison of wrapping products. -/
def vtrrIsEligible (s : Sched) (p q : Ptr) : Bool :=
  s.ticksleft p < s.ticksleft q ∨
    vftNumerator (s.schedticks q) (s.ticksleft q) * s.schedqueue.schedticks -
      vftNumerator s.schedqueue.schedticks s.schedqueue.ticksleft * s.schedticks q <
        s.schedqueue.schedticks

/-- `nextptr = process`. -/
def pick (s : Sched) (process : Ptr) : Sched := { s with nextptr := process }

/-- `nextptr = process`, and its counter starts over. -/
def pickFresh (s : Sched) (process : Ptr) : Sched :=
  { s with
    nextptr := process
    ticksleft := update s.ticksleft process (s.schedticks process) }

/-- `nextptr = schedqueue.head`, and its counter starts over if it is spent. -/
def pickHead (s : Sched) : Sched :=
  if s.ticksleft s.schedqueue.head = 0 then s.pickFresh s.schedqueue.head
  else s.pick s.schedqueue.head

/-- `pick_next_proc` from `last`, the process that had the processor last. -/
def pickAfter (s : Sched) (last : Ptr) : Sched :=
  if last = null then s.pick s.schedqueue.head
  else if last = idlestate then s.pick s.schedqueue.head
  else if s.next last = null then s.pickHead
  else if s.ticksleft last = s.schedticks last - 1 then s.pickFresh (s.next last)
  else if s.vtrrIsEligible last (s.next last) then s.pick (s.next last)
  else s.pickHead

/-- `pick_next_proc`. -/
def pickNextProc (s : Sched) : Sched :=
  if s.schedqueue.head = null then s.pick idlestate
  else s.pickAfter (if s.nextptr = null then s.curptr else s.nextptr)

/-! ## Leaving the queue -/

/-- The loop of `dequeue`: charge and pick until another process is chosen. -/
def pickOther (process : Ptr) : Nat → Sched → Option Sched
  | 0, _ => none
  | n + 1, s =>
    let s := s.chargeProcess.pickNextProc
    let s := { s with curptr := s.nextptr }
    if s.nextptr = process then pickOther process n s else some s

/-- The end of `dequeue`: out of the links and out of the totals. -/
def unlink (s : Sched) (process : Ptr) : Sched :=
  let s :=
    if s.previous process ≠ null then
      { s with next := update s.next (s.previous process) (s.next process) }
    else s
  let s :=
    if s.next process ≠ null then
      { s with previous := update s.previous (s.next process) (s.previous process) }
    else s
  let head := if s.schedqueue.head = process then s.next process else s.schedqueue.head
  { s with schedqueue := {
      head
      ticksleft := s.schedqueue.ticksleft - s.ticksleft process
      schedticks := s.schedqueue.schedticks - s.schedticks process } }

/-- `dequeue`.  The fuel of its loop lets a 32-bit counter run down and start over. -/
def dequeue (s : Sched) (process : Ptr) : Option Sched :=
  if !s.isEnqueued process then some s
  else
    let s := { s with misc := update s.misc process (s.misc process &&& ~~~Flag.enqueued) }
    if s.schedqueue.schedticks = s.schedticks process then
      some { s with schedqueue := { head := null, ticksleft := 0, schedticks := 0 } }
    else
      (if s.curptr = process then pickOther process (2 ^ 32 + 2) s else some s).map
        fun s => s.unlink process

/-- The scheduler variables when processes of these shares have been created and none has
been enqueued. -/
def created (schedticks : Ptr → Word) : Sched where
  next _ := null
  previous _ := null
  schedticks := schedticks
  ticksleft := schedticks
  misc _ := 0
  schedqueue := { head := null, ticksleft := 0, schedticks := 0 }
  curptr := null
  nextptr := null
  tickLog := []

/-- The part of the macro `schedule` that concerns the scheduler. -/
def schedule (s : Sched) : Sched := { s with curptr := s.nextptr, nextptr := null }

end Sched

end Mycrokernel
