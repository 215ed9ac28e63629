import Mathlib.Algebra.Order.Ring.Int
import Mathlib.Data.List.Basic
import Mathlib.Data.Int.Notation
import Mathlib.Logic.Function.Basic
import DocMachine.Lib.Run

/-!
# Sleeping threads

Model of `timer_sleep` and of the timer interrupt in `pintos_task0_sk4520/src/devices/timer.c`
(`timer_ticks` 97-103, `timer_sleep` 116-144, `try_to_wake_up_threads` 147-171,
`has_less_sleep_time` 173-187, `timer_interrupt` 260-265), with the semaphores of `threads/synch.c`
(61-121) and `list_insert_ordered` of `lib/kernel/list.c` (446-459).

* A call of `timer_sleep` takes one step at a time and an interrupt may come between any two:
  reading the ticks, an attempt at a semaphore, one comparison of the ordered insertion, the
  insertion, an up. The handler itself is one step, as it runs with interrupts off.
* Any number of calls are under way; `ticks` gives the argument of every call. The tick counter
  wraps around as `int64_t` does.
* A thread that blocks on a semaphore stands in its `waiters` and does nothing until an up has taken
  it out; it then tests the value again.
* `woken` records which call the handler woke at which tick; nothing reads it.
* The list is that of `ListOperations.lean` by its contents: `sleepingThreadList` is what it holds.

Results:
* `forall_setCall`: what holds of the new state of one call and held of all others holds of every
  call.
* `timerInterrupt_cases`: an interrupt does nothing but count, if the semaphore is taken; else it
  wakes what is due and leaves the semaphore free.
-/

namespace DocMachine.Pintos

variable {C : Type}

/-! ## synch.c -/

/-- `struct semaphore`. -/
structure Semaphore (C : Type) where
  value : ℕ
  waiters : List C
  deriving DecidableEq, Repr

namespace Semaphore

/-- `sema_init`. -/
def init (value : ℕ) : Semaphore C := ⟨value, []⟩

/-- One turn of the loop of `sema_down` by `c`: `true` when it has got the semaphore, `false`
when it has to wait. -/
def down (sema : Semaphore C) (c : C) : Semaphore C × Bool :=
  if sema.value = 0 then ({ sema with waiters := sema.waiters ++ [c] }, false)
  else ({ sema with value := sema.value - 1 }, true)

/-- `sema_try_down`. -/
def tryDown (sema : Semaphore C) : Option (Semaphore C) :=
  if 0 < sema.value then some { sema with value := sema.value - 1 } else none

/-- `sema_up`: the waiter in front is unblocked. -/
def up (sema : Semaphore C) : Semaphore C :=
  { value := sema.value + 1, waiters := sema.waiters.tail }

@[simp] theorem up_value (sema : Semaphore C) : sema.up.value = sema.value + 1 := rfl

end Semaphore

/-! ## timer.c -/

/-- Values of `int64_t`. -/
def int64 (z : ℤ) : ℤ := z.bmod (2 ^ 64)

/-- Where a call of `timer_sleep` stands; `insert pos` compares with the element at `pos`. -/
inductive Pc where
  | entry
  | down
  | insert (pos : ℕ)
  | up
  | block
  | done
  deriving DecidableEq, Repr

/-- The local variables of a call. -/
structure Call (C : Type) where
  pc : Pc
  start : ℤ
  sema : Semaphore C

/-- `struct sleeping_thread`; its semaphore is that of `call`. -/
structure SleepingThread (C : Type) where
  call : C
  sleepEndTimeInTicks : ℤ
  deriving DecidableEq, Repr

/-- The ticks, the sleeping list with its semaphore, and the calls. -/
structure State (C : Type) where
  ticks : ℤ
  sleepingThreadList : List (SleepingThread C)
  sleepingListSema : Semaphore C
  calls : C → Call C
  woken : List (C × ℤ)

/-- After `timer_init`. -/
def State.start : State C where
  ticks := 0
  sleepingThreadList := []
  sleepingListSema := .init 1
  calls := fun _ => ⟨.entry, 0, .init 0⟩
  woken := []

/-- `has_less_sleep_time`. -/
def hasLessSleepTime (a b : SleepingThread C) : Bool :=
  a.sleepEndTimeInTicks < b.sleepEndTimeInTicks

theorem hasLessSleepTime_iff {a b : SleepingThread C} :
    hasLessSleepTime a b = true ↔ a.sleepEndTimeInTicks < b.sleepEndTimeInTicks :=
  decide_eq_true_iff

/-- The elements whose time is over, in front of the list. -/
def due (now : ℤ) (list : List (SleepingThread C)) : List (SleepingThread C) :=
  list.takeWhile fun e => e.sleepEndTimeInTicks ≤ now

/-- The rest of the list. -/
def asleep (now : ℤ) (list : List (SleepingThread C)) : List (SleepingThread C) :=
  list.dropWhile fun e => e.sleepEndTimeInTicks ≤ now

section

variable {now : ℤ} {e : SleepingThread C} (list : List (SleepingThread C))

theorem due_cons_of_le (h : e.sleepEndTimeInTicks ≤ now) :
    due now (e :: list) = e :: due now list :=
  List.takeWhile_cons_of_pos (decide_eq_true h)

theorem asleep_cons_of_le (h : e.sleepEndTimeInTicks ≤ now) :
    asleep now (e :: list) = asleep now list :=
  List.dropWhile_cons_of_pos (decide_eq_true h)

theorem due_cons_of_not_le (h : ¬ e.sleepEndTimeInTicks ≤ now) : due now (e :: list) = [] :=
  List.takeWhile_cons_of_neg fun hd => h (of_decide_eq_true hd)

theorem asleep_cons_of_not_le (h : ¬ e.sleepEndTimeInTicks ≤ now) :
    asleep now (e :: list) = e :: list :=
  List.dropWhile_cons_of_neg fun hd => h (of_decide_eq_true hd)

end

theorem due_append_asleep (now : ℤ) (list : List (SleepingThread C)) :
    due now list ++ asleep now list = list :=
  List.takeWhile_append_dropWhile

variable [DecidableEq C]

/-- The state of one call changes. -/
def State.setCall (s : State C) (c : C) (call : Call C) : State C :=
  { s with calls := Function.update s.calls c call }

/-- One step of `timer_sleep (ticks c)`. -/
def timerSleep (ticks : C → ℤ) (s : State C) (c : C) : Option (State C) :=
  let call := s.calls c
  match call.pc with
  | .entry =>
    if ticks c < 0 then some (s.setCall c { call with pc := .done })
    else some (s.setCall c { call with pc := .down, start := s.ticks })
  | .down =>
    if c ∈ s.sleepingListSema.waiters then none
    else
      let (sema, got) := s.sleepingListSema.down c
      let s := { s with sleepingListSema := sema }
      some (if got then s.setCall c { call with pc := .insert 0, sema := .init 0 } else s)
  | .insert pos =>
    let thread := ⟨c, int64 (call.start + ticks c)⟩
    match s.sleepingThreadList[pos]? with
    | some e =>
      if hasLessSleepTime thread e then
        some { s.setCall c { call with pc := .up } with
          sleepingThreadList := s.sleepingThreadList.take pos ++
            thread :: s.sleepingThreadList.drop pos }
      else some (s.setCall c { call with pc := .insert (pos + 1) })
    | none =>
      some { s.setCall c { call with pc := .up } with
        sleepingThreadList := s.sleepingThreadList ++ [thread] }
  | .up =>
    some { s.setCall c { call with pc := .block } with
      sleepingListSema := s.sleepingListSema.up }
  | .block =>
    if c ∈ call.sema.waiters then none
    else
      let (sema, got) := call.sema.down c
      some (s.setCall c { call with sema := sema, pc := if got then .done else .block })
  | .done => none

/-- The loop of `try_to_wake_up_threads` from the front of the list on. Every element it goes
past is removed. -/
def wakeUpThreads (s : State C) : List (SleepingThread C) → State C
  | [] => { s with sleepingThreadList := [] }
  | e :: list =>
    if e.sleepEndTimeInTicks ≤ s.ticks then
      let call := s.calls e.call
      wakeUpThreads { s.setCall e.call { call with sema := call.sema.up } with
        woken := s.woken ++ [(e.call, s.ticks)] } list
    else { s with sleepingThreadList := e :: list }

/-- `try_to_wake_up_threads`. -/
def tryToWakeUpThreads (s : State C) : State C :=
  match s.sleepingListSema.tryDown with
  | some sema =>
    let s := wakeUpThreads { s with sleepingListSema := sema } s.sleepingThreadList
    { s with sleepingListSema := s.sleepingListSema.up }
  | none => s

/-- `timer_interrupt`. -/
def timerInterrupt (s : State C) : State C :=
  tryToWakeUpThreads { s with ticks := int64 (s.ticks + 1) }

/-- One step of a call, or an interrupt. -/
inductive Action (C : Type) where
  | call (c : C)
  | interrupt

/-- One action, if it is possible. -/
def step (ticks : C → ℤ) (s : State C) : Action C → Option (State C)
  | .call c => timerSleep ticks s c
  | .interrupt => some (timerInterrupt s)

/-! ## What a step does -/

theorem calls_setCall (s : State C) (c d : C) (call : Call C) :
    (s.setCall c call).calls d = if d = c then call else s.calls d := by
  by_cases h : d = c
  · subst h
    rw [if_pos rfl]
    exact Function.update_self ..
  · rw [if_neg h]
    exact Function.update_of_ne h ..

/-- What holds of the new state of one call and held of all others holds of every call. -/
theorem forall_setCall {s : State C} {c : C} {call : Call C} {P : C → Call C → Prop}
    (hc : P c call) (h : ∀ d, d ≠ c → P d (s.calls d)) (d : C) :
    P d ((s.setCall c call).calls d) := by
  rw [calls_setCall]
  by_cases hdc : d = c
  · rw [if_pos hdc, hdc]
    exact hc
  · rw [if_neg hdc]
    exact h d hdc

/-- **What one step of a call does.** The ordered insertion goes past the elements that the new
one is not less than and stops at the first other one, or at the end. -/
inductive Sleeps (ticks : C → ℤ) (s : State C) (c : C) : State C → Prop
  | refuse : (s.calls c).pc = .entry → ticks c < 0 →
      Sleeps ticks s c (s.setCall c { s.calls c with pc := .done })
  | read : (s.calls c).pc = .entry → 0 ≤ ticks c →
      Sleeps ticks s c (s.setCall c { s.calls c with pc := .down, start := s.ticks })
  | wait : (s.calls c).pc = .down → Sleeps ticks s c { s with sleepingListSema :=
      ⟨s.sleepingListSema.value, s.sleepingListSema.waiters ++ [c]⟩ }
  | enter : (s.calls c).pc = .down → s.sleepingListSema.value ≠ 0 →
      Sleeps ticks s c (State.setCall { s with sleepingListSema :=
        ⟨s.sleepingListSema.value - 1, s.sleepingListSema.waiters⟩ } c
          { s.calls c with pc := .insert 0, sema := .init 0 })
  | scan {pos : ℕ} {e : SleepingThread C} : (s.calls c).pc = .insert pos →
      s.sleepingThreadList[pos]? = some e →
      e.sleepEndTimeInTicks ≤ int64 ((s.calls c).start + ticks c) →
      Sleeps ticks s c (s.setCall c { s.calls c with pc := .insert (pos + 1) })
  | insert {pos : ℕ} : (s.calls c).pc = .insert pos →
      (∀ e, s.sleepingThreadList[pos]? = some e →
        int64 ((s.calls c).start + ticks c) < e.sleepEndTimeInTicks) →
      Sleeps ticks s c { s.setCall c { s.calls c with pc := .up } with
        sleepingThreadList := s.sleepingThreadList.take pos ++
          ⟨c, int64 ((s.calls c).start + ticks c)⟩ :: s.sleepingThreadList.drop pos }
  | up : (s.calls c).pc = .up →
      Sleeps ticks s c { s.setCall c { s.calls c with pc := .block } with
        sleepingListSema := s.sleepingListSema.up }
  | block : (s.calls c).pc = .block → (s.calls c).sema.value = 0 → Sleeps ticks s c
      (s.setCall c { s.calls c with
        sema := ⟨(s.calls c).sema.value, (s.calls c).sema.waiters ++ [c]⟩, pc := .block })
  | wake : (s.calls c).pc = .block → (s.calls c).sema.value ≠ 0 → Sleeps ticks s c
      (s.setCall c { s.calls c with
        sema := ⟨(s.calls c).sema.value - 1, (s.calls c).sema.waiters⟩, pc := .done })

theorem timerSleep_sleeps {ticks : C → ℤ} {s t : State C} {c : C}
    (h : timerSleep ticks s c = some t) : Sleeps ticks s c t := by
  unfold timerSleep at h
  dsimp only at h
  split at h
  · rename_i hpc
    by_cases hneg : ticks c < 0
    · rw [if_pos hneg] at h
      cases h
      exact .refuse hpc hneg
    · rw [if_neg hneg] at h
      cases h
      exact .read hpc (Int.not_lt.mp hneg)
  · rename_i hpc
    by_cases hwaits : c ∈ s.sleepingListSema.waiters
    · rw [if_pos hwaits] at h
      cases h
    · rw [if_neg hwaits] at h
      unfold Semaphore.down at h
      by_cases hvalue : s.sleepingListSema.value = 0
      · simp only [if_pos hvalue] at h
        cases h
        exact .wait hpc
      · simp only [if_neg hvalue] at h
        cases h
        exact .enter hpc hvalue
  · rename_i pos hpc
    split at h
    · rename_i e hpos
      by_cases hless : int64 ((s.calls c).start + ticks c) < e.sleepEndTimeInTicks
      · rw [if_pos (hasLessSleepTime_iff.mpr hless)] at h
        cases h
        refine .insert hpc fun e' he' => ?_
        rw [hpos] at he'
        cases he'
        exact hless
      · rw [if_neg (fun hd => hless (hasLessSleepTime_iff.mp hd))] at h
        cases h
        exact .scan hpc hpos (Int.not_lt.mp hless)
    · rename_i hpos
      cases h
      have hend := List.getElem?_eq_none_iff.mp hpos
      have hins : Sleeps ticks s c _ :=
        .insert hpc fun e' he' => by rw [hpos] at he'; cases he'
      rw [List.take_of_length_le hend, List.drop_of_length_le hend] at hins
      exact hins
  · rename_i hpc
    cases h
    exact .up hpc
  · rename_i hpc
    by_cases hwaits : c ∈ (s.calls c).sema.waiters
    · rw [if_pos hwaits] at h
      cases h
    · rw [if_neg hwaits] at h
      unfold Semaphore.down at h
      by_cases hvalue : (s.calls c).sema.value = 0
      · simp only [if_pos hvalue] at h
        cases h
        exact .block hpc hvalue
      · simp only [if_neg hvalue] at h
        cases h
        exact .wake hpc hvalue
  · cases h

/-- **What the loop does**: the elements in front that are due are woken and leave the list. -/
structure Wakes (s : State C) (l : List (SleepingThread C)) (t : State C) : Prop where
  ticks : t.ticks = s.ticks
  sema : t.sleepingListSema = s.sleepingListSema
  list : t.sleepingThreadList = asleep s.ticks l
  woken : t.woken = s.woken ++ (due s.ticks l).map fun e => (e.call, s.ticks)
  pc : ∀ c, (t.calls c).pc = (s.calls c).pc
  start : ∀ c, (t.calls c).start = (s.calls c).start
  value : ∀ c, (t.calls c).sema.value =
    (s.calls c).sema.value + ((due s.ticks l).map SleepingThread.call).count c

theorem wakeUpThreads_wakes (s : State C) (l : List (SleepingThread C)) :
    Wakes s l (wakeUpThreads s l) := by
  induction l generalizing s with
  | nil => exact ⟨rfl, rfl, rfl, (List.append_nil _).symm, fun _ => rfl, fun _ => rfl, fun _ => rfl⟩
  | cons e l ih =>
    unfold wakeUpThreads
    by_cases hdue : e.sleepEndTimeInTicks ≤ s.ticks
    · rw [if_pos hdue]
      have hnow := due_cons_of_le l hdue
      have hlater := asleep_cons_of_le l hdue
      have h := ih { s.setCall e.call { s.calls e.call with sema := (s.calls e.call).sema.up } with
        woken := s.woken ++ [(e.call, s.ticks)] }
      refine ⟨h.ticks, h.sema, ?_, ?_, fun c => ?_, fun c => ?_, fun c => ?_⟩
      · rw [hlater]
        exact h.list
      · rw [h.woken, hnow, List.append_assoc]
        rfl
      · rw [h.pc]
        refine forall_setCall (P := fun c call => call.pc = (s.calls c).pc) ?_ (fun _ _ => rfl) c
        rfl
      · rw [h.start]
        refine forall_setCall (P := fun c call => call.start = (s.calls c).start) ?_
          (fun _ _ => rfl) c
        rfl
      · rw [h.value, hnow, List.map_cons]
        refine forall_setCall (P := fun c call => call.sema.value +
          ((due s.ticks l).map SleepingThread.call).count c = (s.calls c).sema.value +
            (e.call :: (due s.ticks l).map SleepingThread.call).count c) ?_ (fun c hc => ?_) c
        · rw [List.count_cons_self, Semaphore.up_value]
          exact Nat.add_right_comm _ _ _
        · rw [List.count_cons_of_ne (Ne.symm hc)]
    · rw [if_neg hdue]
      have hnow := due_cons_of_not_le l hdue
      have hlater := asleep_cons_of_not_le l hdue
      refine ⟨rfl, rfl, hlater.symm, ?_, fun _ => rfl, fun _ => rfl, fun c => ?_⟩
      · rw [hnow]
        exact (List.append_nil _).symm
      · rw [hnow]
        rfl

/-- **What an interrupt does**: nothing but count, if the semaphore is taken; else it wakes what
is due and leaves the semaphore free. -/
theorem timerInterrupt_cases (s : State C) :
    (s.sleepingListSema.value = 0 ∧
      timerInterrupt s = { s with ticks := int64 (s.ticks + 1) }) ∨
    (0 < s.sleepingListSema.value ∧ ∃ t,
      Wakes { s with
        ticks := int64 (s.ticks + 1)
        sleepingListSema := ⟨s.sleepingListSema.value - 1, s.sleepingListSema.waiters⟩ }
        s.sleepingThreadList t ∧
      timerInterrupt s = { t with sleepingListSema := t.sleepingListSema.up }) := by
  unfold timerInterrupt tryToWakeUpThreads Semaphore.tryDown
  by_cases hvalue : 0 < s.sleepingListSema.value
  · rw [if_pos hvalue]
    exact Or.inr ⟨hvalue, _, wakeUpThreads_wakes _ _, rfl⟩
  · rw [if_neg hvalue]
    exact Or.inl ⟨Nat.eq_zero_of_not_pos hvalue, rfl⟩

end DocMachine.Pintos
