import Mathlib.Data.List.TakeWhile
import DocMachine.Pintos.Timer

/-!
# The sleeping list

What holds of the sleeping list of `pintos_task0_sk4520/src/devices/timer.c` (116-187) in every
state of every interleaving of calls and interrupts.

* `Inv` is the invariant. Its heart is mutual exclusion: a call that is inserting holds the
  semaphore, so that the handler leaves the list alone and the elements the insertion has gone past
  stay where they are (`inserting`). `once` counts every call in the list and among the woken
  together.
* A step of a call either leaves the list alone, and then only the semaphore matters (`Inv.move`),
  or is the insertion (`Inv.insert`).
* An end time may overflow; the statements are about calls for which it does not.

Results:
* `sorted_insert`: the ordered insertion keeps the list sorted.
* `Inv.sleeps` and `Inv.wakes`: every step of a call and every interrupt keeps the invariant.
* `Inv.interrupt_asleep`: after a tick whose handler got the semaphore nothing in the list is due.
* `sleepList`: the list is sorted when the semaphore is free, every thread that was put in is in it
  or was woken, once, and not before its time.
* `timerSleep_done`: no call returns before its time is over.
-/

namespace DocMachine.Pintos

open DocMachine.Lib.Run

variable {C : Type}

/-- A call that holds the semaphore of the list. -/
def Pc.holds : Pc → Bool
  | .insert _ | .up => true
  | _ => false

/-- A call for `ticks` that has put its thread into the list. -/
def Pc.inserted (ticks : ℤ) : Pc → Bool
  | .up | .block => true
  | .done => 0 ≤ ticks
  | _ => false

/-- A call for `ticks` that has slept and returned. -/
def Pc.slept (ticks : ℤ) : Pc → Bool
  | .done => 0 ≤ ticks
  | _ => false

/-- A call that has started to sleep and has not returned. -/
def Pc.waits : Pc → Bool
  | .entry | .done => false
  | _ => true

/-- The stored end time of a call. -/
def State.endTime (ticks : C → ℤ) (s : State C) (c : C) : ℤ := int64 ((s.calls c).start + ticks c)

/-- The ordered insertion: what is in front is not greater and what follows is. -/
theorem sorted_insert {l : List (SleepingThread C)} {e : SleepingThread C} {pos : ℕ}
    (hl : l.Pairwise fun a b => a.sleepEndTimeInTicks ≤ b.sleepEndTimeInTicks)
    (hfront : ∀ a ∈ l.take pos, a.sleepEndTimeInTicks ≤ e.sleepEndTimeInTicks)
    (hnext : ∀ b, l[pos]? = some b → e.sleepEndTimeInTicks < b.sleepEndTimeInTicks) :
    (l.take pos ++ e :: l.drop pos).Pairwise fun a b =>
      a.sleepEndTimeInTicks ≤ b.sleepEndTimeInTicks := by
  have hsplit : (l.take pos ++ l.drop pos).Pairwise fun a b =>
      a.sleepEndTimeInTicks ≤ b.sleepEndTimeInTicks := by
    rw [List.take_append_drop]
    exact hl
  obtain ⟨htake, hdrop, hcross⟩ := List.pairwise_append.mp hsplit
  have hback : ∀ b ∈ l.drop pos, e.sleepEndTimeInTicks ≤ b.sleepEndTimeInTicks := by
    intro b hb
    cases hrest : l.drop pos with
    | nil =>
      rw [hrest] at hb
      cases hb
    | cons b' rest =>
      have hhead : l[pos]? = some b' := by
        rw [← List.head?_drop, hrest]
        rfl
      have hlt := hnext b' hhead
      rw [hrest] at hb hdrop
      rcases List.mem_cons.mp hb with rfl | hb
      · omega
      · have hle := (List.pairwise_cons.mp hdrop).1 b hb
        omega
  refine List.pairwise_append.mpr ⟨htake, List.pairwise_cons.mpr ⟨hback, hdrop⟩, ?_⟩
  intro a ha b hb
  rcases List.mem_cons.mp hb with rfl | hb
  · exact hfront a ha
  · exact hcross a ha b hb

/-- In a sorted list, nothing behind the first element that is not due is due. -/
theorem lt_of_mem_asleep {now : ℤ} {l : List (SleepingThread C)}
    (hl : l.Pairwise fun a b => a.sleepEndTimeInTicks ≤ b.sleepEndTimeInTicks) :
    ∀ e ∈ asleep now l, now < e.sleepEndTimeInTicks := by
  induction l with
  | nil => exact fun e he => absurd he List.not_mem_nil
  | cons a l ih =>
    obtain ⟨hfirst, hl⟩ := List.pairwise_cons.mp hl
    intro e he
    by_cases hdue : a.sleepEndTimeInTicks ≤ now
    · rw [asleep_cons_of_le l hdue] at he
      exact ih hl e he
    · rw [asleep_cons_of_not_le l hdue] at he
      rcases List.mem_cons.mp he with rfl | he
      · exact Int.not_le.mp hdue
      · have hle := hfirst e he
        omega

variable [DecidableEq C]

/-- How often a call is in the list. -/
def State.listed (s : State C) (c : C) : ℕ := (s.sleepingThreadList.map SleepingThread.call).count c

/-- How often a call has been woken. -/
def State.wakings (s : State C) (c : C) : ℕ := (s.woken.map Prod.fst).count c

/-- What holds of the list, the semaphore and the calls. -/
structure Inv (ticks : C → ℤ) (s : State C) : Prop where
  sorted : s.sleepingThreadList.Pairwise fun a b => a.sleepEndTimeInTicks ≤ b.sleepEndTimeInTicks
  endTime : ∀ e ∈ s.sleepingThreadList, e.sleepEndTimeInTicks = s.endTime ticks e.call
  free : s.sleepingListSema.value ≤ 1
  taken : ∀ c, (s.calls c).pc.holds → s.sleepingListSema.value = 0
  exclusive : ∀ c d, (s.calls c).pc.holds → (s.calls d).pc.holds → c = d
  inserting : ∀ c pos, (s.calls c).pc = .insert pos →
    ∀ e ∈ s.sleepingThreadList.take pos, e.sleepEndTimeInTicks ≤ s.endTime ticks c
  once : ∀ c, s.listed c + s.wakings c = if (s.calls c).pc.inserted (ticks c) then 1 else 0
  late : ∀ c now, (c, now) ∈ s.woken → s.endTime ticks c ≤ now
  own : ∀ c, (s.calls c).sema.value + (if (s.calls c).pc.slept (ticks c) then 1 else 0) =
    s.wakings c
  asked : ∀ c, (s.calls c).pc.waits → 0 ≤ ticks c

theorem inv_start (ticks : C → ℤ) : Inv ticks (State.start : State C) where
  sorted := .nil
  endTime := fun _ h => absurd h List.not_mem_nil
  free := Nat.le_refl 1
  taken := fun _ h => by cases h
  exclusive := fun _ _ h => by cases h
  inserting := fun _ _ h => by cases h
  once := fun _ => rfl
  late := fun _ _ h => absurd h List.not_mem_nil
  own := fun _ => rfl
  asked := fun _ h => by cases h

variable {ticks : C → ℤ} {s : State C} {c : C}

theorem Inv.not_listed (hi : Inv ticks s) (hc : (s.calls c).pc.inserted (ticks c) = false) :
    s.listed c = 0 ∧ s.wakings c = 0 := by
  have h := hi.once c
  rw [hc] at h
  exact Nat.add_eq_zero_iff.mp h

theorem Inv.inserted_of_mem (hi : Inv ticks s) {e : SleepingThread C}
    (he : e ∈ s.sleepingThreadList) : (s.calls e.call).pc.inserted (ticks e.call) = true := by
  have hpos : 0 < s.listed e.call := List.count_pos_iff.mpr (List.mem_map_of_mem he)
  have h := hi.once e.call
  by_contra hn
  rw [if_neg hn] at h
  omega

theorem Inv.inserted_of_woken (hi : Inv ticks s) {now : ℤ} (hw : (c, now) ∈ s.woken) :
    (s.calls c).pc.inserted (ticks c) = true := by
  have hpos : 0 < s.wakings c := List.count_pos_iff.mpr (List.mem_map_of_mem (f := Prod.fst) hw)
  have h := hi.once c
  by_contra hn
  rw [if_neg hn] at h
  omega

/-- A step of a call that leaves the list alone and does not put a thread into it keeps the
invariant, if the semaphore is free only when nobody holds it, and at most one call does. -/
theorem Inv.move (hi : Inv ticks s) {call : Call C} {sema : Semaphore C}
    (hstart : call.start = (s.calls c).start ∨ (s.calls c).pc.inserted (ticks c) = false)
    (hinserted : call.pc.inserted (ticks c) = (s.calls c).pc.inserted (ticks c))
    (hpos : ∀ pos, call.pc = .insert pos → ∀ e ∈ s.sleepingThreadList.take pos,
      e.sleepEndTimeInTicks ≤ int64 (call.start + ticks c))
    (hsema : call.sema.value + (if call.pc.slept (ticks c) then 1 else 0) =
      (s.calls c).sema.value + if (s.calls c).pc.slept (ticks c) then 1 else 0)
    (hasked : call.pc.waits → 0 ≤ ticks c) (hfree : sema.value ≤ 1)
    (hself : call.pc.holds → sema.value = 0)
    (hother : ∀ d, d ≠ c → (s.calls d).pc.holds → sema.value = 0 ∧ ¬ call.pc.holds) :
    Inv ticks (State.setCall { s with sleepingListSema := sema } c call) := by
  have hend : ∀ d, (s.calls d).pc.inserted (ticks d) = true →
      (State.setCall { s with sleepingListSema := sema } c call).endTime ticks d =
        s.endTime ticks d := by
    refine forall_setCall (P := fun d call' => (s.calls d).pc.inserted (ticks d) = true →
      int64 (call'.start + ticks d) = s.endTime ticks d) (fun hc => ?_) fun d _ _ => rfl
    rcases hstart with hstart | hstart
    · rw [hstart]
      rfl
    · rw [hstart] at hc
      cases hc
  -- of two calls that hold the semaphore, neither is `c` or both are
  have hexclusive : ∀ d d', ((State.setCall { s with sleepingListSema := sema } c call).calls
      d).pc.holds → ((State.setCall { s with sleepingListSema := sema } c call).calls
      d').pc.holds → d = d' := by
    intro d d'
    rw [calls_setCall, calls_setCall]
    by_cases hdc : d = c <;> by_cases hdc' : d' = c
    · exact fun _ _ => hdc.trans hdc'.symm
    · rw [if_pos hdc, if_neg hdc']
      exact fun hd hd' => absurd hd (hother d' hdc' hd').2
    · rw [if_neg hdc, if_pos hdc']
      exact fun hd hd' => absurd hd' (hother d hdc hd).2
    · rw [if_neg hdc, if_neg hdc']
      exact hi.exclusive d d'
  refine ⟨hi.sorted, fun e he => ?_, hfree, ?_, hexclusive, ?_, ?_, fun d now hd => ?_, ?_, ?_⟩
  · rw [hend _ (hi.inserted_of_mem he)]
    exact hi.endTime e he
  · exact forall_setCall (P := fun _ call' => call'.pc.holds → sema.value = 0) hself
      fun d hdc hd => (hother d hdc hd).1
  · exact forall_setCall (P := fun d call' => ∀ pos, call'.pc = .insert pos →
      ∀ e ∈ s.sleepingThreadList.take pos, e.sleepEndTimeInTicks ≤ int64 (call'.start + ticks d))
      hpos fun d _ => hi.inserting d
  · refine forall_setCall (P := fun d call' => s.listed d + s.wakings d =
      if call'.pc.inserted (ticks d) then 1 else 0) ?_ fun d _ => hi.once d
    rw [hinserted]
    exact hi.once c
  · rw [hend _ (hi.inserted_of_woken hd)]
    exact hi.late d now hd
  · refine forall_setCall (P := fun d call' => call'.sema.value +
      (if call'.pc.slept (ticks d) then 1 else 0) = s.wakings d) ?_ fun d _ => hi.own d
    rw [hsema]
    exact hi.own c
  · exact forall_setCall (P := fun d call' => call'.pc.waits → 0 ≤ ticks d) hasked
      fun d _ => hi.asked d

/-- The same for a step that does not get the semaphore and leaves it alone. -/
theorem Inv.setCall (hi : Inv ticks s) {call : Call C}
    (hstart : call.start = (s.calls c).start ∨ (s.calls c).pc.inserted (ticks c) = false)
    (hinserted : call.pc.inserted (ticks c) = (s.calls c).pc.inserted (ticks c))
    (hholds : call.pc.holds → (s.calls c).pc.holds)
    (hpos : ∀ pos, call.pc = .insert pos → ∀ e ∈ s.sleepingThreadList.take pos,
      e.sleepEndTimeInTicks ≤ int64 (call.start + ticks c))
    (hsema : call.sema.value + (if call.pc.slept (ticks c) then 1 else 0) =
      (s.calls c).sema.value + if (s.calls c).pc.slept (ticks c) then 1 else 0)
    (hasked : call.pc.waits → 0 ≤ ticks c) : Inv ticks (s.setCall c call) :=
  hi.move hstart hinserted hpos hsema hasked hi.free (fun h => hi.taken c (hholds h))
    fun d hdc hd => ⟨hi.taken d hd, fun h => hdc (hi.exclusive d c hd (hholds h))⟩

/-- The thread of a call is put into the list. -/
theorem Inv.insert (hi : Inv ticks s) {pos : ℕ} (hpc : (s.calls c).pc = .insert pos)
    (hnext : ∀ e, s.sleepingThreadList[pos]? = some e →
      int64 ((s.calls c).start + ticks c) < e.sleepEndTimeInTicks) :
    Inv ticks { s.setCall c { s.calls c with pc := .up } with
      sleepingThreadList := s.sleepingThreadList.take pos ++
        ⟨c, int64 ((s.calls c).start + ticks c)⟩ :: s.sleepingThreadList.drop pos } := by
  have hholds : (s.calls c).pc.holds := by rw [hpc]; rfl
  obtain ⟨hnone, hwak⟩ := hi.not_listed (c := c) (by rw [hpc]; rfl)
  have hstart : ∀ d, ((s.setCall c { s.calls c with pc := .up }).calls d).start =
      (s.calls d).start :=
    forall_setCall (P := fun d call => call.start = (s.calls d).start) rfl fun _ _ => rfl
  have hheld : ∀ d, ((s.setCall c { s.calls c with pc := .up }).calls d).pc.holds →
      (s.calls d).pc.holds :=
    forall_setCall (P := fun d call => call.pc.holds → (s.calls d).pc.holds) (fun _ => hholds)
      fun _ _ => id
  refine ⟨sorted_insert hi.sorted (hi.inserting c pos hpc) hnext, fun e he => ?_, hi.free,
    fun d hd => hi.taken d (hheld d hd),
    fun d d' hd hd' => hi.exclusive d d' (hheld d hd) (hheld d' hd'), ?_, fun d => ?_,
    fun d now hd => ?_, ?_, ?_⟩
  · unfold State.endTime
    dsimp only
    rw [hstart]
    rcases List.mem_append.mp he with he | he
    · exact hi.endTime e (List.mem_of_mem_take he)
    · rcases List.mem_cons.mp he with rfl | he
      · rfl
      · exact hi.endTime e (List.mem_of_mem_drop he)
  · -- nobody else is inserting
    have hnobody : ∀ d pos', ((s.setCall c { s.calls c with pc := .up }).calls d).pc ≠
        .insert pos' :=
      forall_setCall (P := fun _ call => ∀ pos', call.pc ≠ .insert pos') (fun _ => nofun)
        fun d hdc pos' hd => hdc (hi.exclusive d c (by rw [hd]; rfl) hholds)
    exact fun d pos' hd => absurd hd (hnobody d pos')
  · have hlisted : State.listed { s.setCall c { s.calls c with pc := .up } with
        sleepingThreadList := s.sleepingThreadList.take pos ++
          ⟨c, int64 ((s.calls c).start + ticks c)⟩ :: s.sleepingThreadList.drop pos } d =
        s.listed d + if d = c then 1 else 0 := by
      have hsplit := congrArg (fun l => (l.map SleepingThread.call).count d)
        (List.take_append_drop pos s.sleepingThreadList)
      unfold State.listed
      simp only [List.map_append, List.map_cons, List.count_append, List.count_cons,
        beq_iff_eq, eq_comm (a := c)] at hsplit ⊢
      omega
    rw [hlisted]
    refine forall_setCall (P := fun d call => s.listed d + (if d = c then 1 else 0) +
      s.wakings d = if call.pc.inserted (ticks d) then 1 else 0) ?_ (fun d hdc => ?_) d
    · rw [if_pos rfl, hnone, hwak]
      rfl
    · rw [if_neg hdc]
      exact hi.once d
  · unfold State.endTime
    dsimp only
    rw [hstart]
    exact hi.late d now hd
  · have hown := hi.own c
    rw [hpc] at hown
    exact forall_setCall (P := fun d call => call.sema.value +
      (if call.pc.slept (ticks d) then 1 else 0) = s.wakings d) hown fun d _ => hi.own d
  · exact forall_setCall (P := fun d call => call.pc.waits → 0 ≤ ticks d)
      (fun _ => hi.asked c (by rw [hpc]; rfl)) fun d _ => hi.asked d

/-- **Every step of a call keeps the invariant.** -/
theorem Inv.sleeps {t : State C} (hi : Inv ticks s) (h : Sleeps ticks s c t) : Inv ticks t := by
  cases h with
  | refuse hpc hneg =>
    have hdone : decide (0 ≤ ticks c) = false := decide_eq_false (Int.not_le.mpr hneg)
    refine hi.setCall (Or.inl rfl) ?_ (fun h => by cases h) (fun _ h => by cases h) ?_
      (fun h => by cases h)
    · rw [hpc]
      exact hdone
    · rw [hpc]
      exact congrArg (fun b : Bool => (s.calls c).sema.value + if b then 1 else 0) hdone
  | read hpc hpos =>
    exact hi.setCall (Or.inr (by rw [hpc]; rfl)) (by rw [hpc]; rfl) (fun h => by cases h)
      (fun _ h => by cases h) (by rw [hpc]; rfl) fun _ => hpos
  | wait hpc =>
    exact ⟨hi.sorted, hi.endTime, hi.free, hi.taken, hi.exclusive, hi.inserting, hi.once, hi.late,
      hi.own, hi.asked⟩
  | enter hpc hvalue =>
    have hfree := hi.free
    have hown := hi.own c
    obtain ⟨-, hwak⟩ := hi.not_listed (c := c) (by rw [hpc]; rfl)
    rw [hpc, hwak] at hown
    refine hi.move (Or.inl rfl) (by rw [hpc]; rfl) ?_ (by rw [hpc, hown]; rfl)
      (fun _ => hi.asked c (by rw [hpc]; rfl)) (by dsimp only; omega)
      (fun _ => by dsimp only; omega) fun d _ hd => absurd (hi.taken d hd) hvalue
    intro pos heq e he
    cases heq
    cases he
  | @scan pos e hpc hpos hle =>
    refine hi.setCall (Or.inl rfl) (by rw [hpc]; rfl) (fun _ => by rw [hpc]; rfl) ?_
      (by rw [hpc]; rfl) fun _ => hi.asked c (by rw [hpc]; rfl)
    intro pos' heq a ha
    cases heq
    rw [List.take_add_one, hpos] at ha
    rcases List.mem_append.mp ha with ha | ha
    · exact hi.inserting c pos hpc a ha
    · rw [Option.toList_some, List.mem_singleton] at ha
      rw [ha]
      exact hle
  | insert hpc hnext => exact hi.insert hpc hnext
  | up hpc =>
    have hheld : (s.calls c).pc.holds := by rw [hpc]; rfl
    have hvalue := hi.taken c hheld
    exact hi.move (Or.inl rfl) (by rw [hpc]; rfl) (fun _ h => by cases h) (by rw [hpc]; rfl)
      (fun _ => hi.asked c (by rw [hpc]; rfl)) (by dsimp only; omega)
      (fun h => by cases h) fun d hdc hd => absurd (hi.exclusive d c hd hheld) hdc
  | block hpc hvalue =>
    exact hi.setCall (Or.inl rfl) (by rw [hpc]) (fun h => by cases h) (fun _ h => by cases h)
      (by rw [hpc]) fun _ => hi.asked c (by rw [hpc]; rfl)
  | wake hpc hvalue =>
    have hdone : decide (0 ≤ ticks c) = true := decide_eq_true (hi.asked c (by rw [hpc]; rfl))
    refine hi.setCall (Or.inl rfl) ?_ (fun h => by cases h) (fun _ h => by cases h) ?_
      (fun h => by cases h)
    · rw [hpc]
      exact hdone
    · have hslept : Pc.done.slept (ticks c) = true := hdone
      rw [hpc, hslept]
      exact Nat.sub_add_cancel (Nat.pos_of_ne_zero hvalue)

/-! ## Interrupts -/

/-- Waking what is due keeps the invariant, if nobody holds the semaphore. -/
theorem Inv.wakes {t : State C} (hi : Inv ticks s) {now : ℤ} {sema sema' : Semaphore C}
    (hnobody : ∀ d, ¬ (s.calls d).pc.holds) (hfree : sema'.value ≤ 1)
    (h : Wakes { s with ticks := now, sleepingListSema := sema } s.sleepingThreadList t) :
    Inv ticks { t with sleepingListSema := sema' } := by
  have hsplit := due_append_asleep now s.sleepingThreadList
  have hlist : t.sleepingThreadList = asleep now s.sleepingThreadList := h.list
  have hwoken : t.woken =
    s.woken ++ (due now s.sleepingThreadList).map fun e => (e.call, now) := h.woken
  have hpc : ∀ d, (t.calls d).pc = (s.calls d).pc := h.pc
  have hend : ∀ d, t.endTime ticks d = s.endTime ticks d := fun d =>
    congrArg (fun start => int64 (start + ticks d)) (h.start d)
  have hwakings : ∀ d, t.wakings d = s.wakings d +
      ((due now s.sleepingThreadList).map SleepingThread.call).count d := by
    intro d
    unfold State.wakings
    rw [hwoken, List.map_append, List.count_append, List.map_map]
    rfl
  have hmem : ∀ e ∈ asleep now s.sleepingThreadList, e ∈ s.sleepingThreadList := fun e he =>
    (List.dropWhile_sublist _).subset he
  refine ⟨?_, fun e he => ?_, hfree, fun d hd => ?_, fun d d' hd _ => ?_, fun d pos hd => ?_,
    fun d => ?_, fun d now' hd => ?_, fun d => ?_, fun d hd => ?_⟩
  · dsimp only
    rw [hlist]
    exact hi.sorted.sublist (List.dropWhile_sublist _)
  · dsimp only at he
    rw [hlist] at he
    exact (hi.endTime e (hmem e he)).trans (hend e.call).symm
  · dsimp only at hd
    rw [hpc] at hd
    exact absurd hd (hnobody d)
  · dsimp only at hd
    rw [hpc] at hd
    exact absurd hd (hnobody d)
  · dsimp only at hd
    rw [hpc] at hd
    exact absurd (by rw [hd]; rfl) (hnobody d)
  · have hcount := congrArg (fun l => (l.map SleepingThread.call).count d) hsplit
    simp only [List.map_append, List.count_append] at hcount
    have honce := hi.once d
    have hw := hwakings d
    have hl : t.listed d = ((asleep now s.sleepingThreadList).map SleepingThread.call).count d := by
      rw [State.listed, hlist]
    dsimp only
    rw [hpc]
    unfold State.listed at honce
    change t.listed d + t.wakings d = _
    omega
  · rw [hwoken] at hd
    change t.endTime ticks d ≤ now'
    rw [hend]
    rcases List.mem_append.mp hd with hd | hd
    · exact hi.late d now' hd
    · obtain ⟨e, he, heq⟩ := List.mem_map.mp hd
      cases heq
      have hmem : e ∈ s.sleepingThreadList := (List.takeWhile_sublist _).subset he
      rw [← hi.endTime e hmem]
      have hdue := List.mem_takeWhile_imp he
      exact of_decide_eq_true hdue
  · have hv : (t.calls d).sema.value = (s.calls d).sema.value +
        ((due now s.sleepingThreadList).map SleepingThread.call).count d := h.value d
    have hown := hi.own d
    have hw := hwakings d
    dsimp only
    rw [hpc]
    change _ = t.wakings d
    omega
  · dsimp only at hd
    rw [hpc] at hd
    exact hi.asked d hd

theorem Inv.interrupt (hi : Inv ticks s) : Inv ticks (timerInterrupt s) := by
  obtain ⟨-, heq⟩ | ⟨hvalue, t, hwakes, heq⟩ := timerInterrupt_cases s
  · rw [heq]
    exact ⟨hi.sorted, hi.endTime, hi.free, hi.taken, hi.exclusive, hi.inserting, hi.once, hi.late,
      hi.own, hi.asked⟩
  · rw [heq]
    have hfree := hi.free
    refine hi.wakes (fun d hd => ?_) ?_ hwakes
    · have hzero := hi.taken d hd
      omega
    · rw [Semaphore.up_value, hwakes.sema]
      dsimp only
      omega

theorem Inv.step {t : State C} (hi : Inv ticks s) {a : Action C}
    (h : step ticks s a = some t) : Inv ticks t := by
  cases a with
  | call c => exact hi.sleeps (timerSleep_sleeps h)
  | interrupt =>
    cases h
    exact hi.interrupt

theorem inv_of_run {as : List (Action C)} (h : run (step ticks) State.start as = some s) :
    Inv ticks s :=
  invariant (fun _ _ _ hi hstep => hi.step hstep) (inv_start ticks) h

/-- After a tick whose handler got the semaphore nothing in the list is due. -/
theorem Inv.interrupt_asleep (hi : Inv ticks s) (hvalue : 0 < s.sleepingListSema.value) :
    ∀ e ∈ (timerInterrupt s).sleepingThreadList,
      e ∈ s.sleepingThreadList ∧ (timerInterrupt s).ticks < e.sleepEndTimeInTicks := by
  obtain ⟨hzero, -⟩ | ⟨-, t, hwakes, heq⟩ := timerInterrupt_cases s
  · exact absurd hzero (Nat.pos_iff_ne_zero.mp hvalue)
  · intro e he
    rw [heq] at he ⊢
    dsimp only at he ⊢
    rw [hwakes.list] at he
    rw [hwakes.ticks]
    exact ⟨(List.dropWhile_sublist _).subset he, lt_of_mem_asleep hi.sorted e he⟩

/-! ## Every interleaving -/

/-- **The sleeping list.** In every state of every interleaving, when `start + ticks` has not
overflowed for any thread put into the list: the list is sorted by end time when the semaphore is
free; every thread put into it is still there or has been woken exactly once; none has been woken
before its end time; and a tick whose handler gets the semaphore leaves none in the list that is
due. -/
theorem sleepList {as : List (Action C)} (h : run (step ticks) State.start as = some s)
    (hfit : ∀ c, (s.calls c).pc.inserted (ticks c) →
      int64 ((s.calls c).start + ticks c) = (s.calls c).start + ticks c) :
    (0 < s.sleepingListSema.value → s.sleepingThreadList.Pairwise fun a b =>
      (s.calls a.call).start + ticks a.call ≤ (s.calls b.call).start + ticks b.call) ∧
    (∀ c, (s.calls c).pc.inserted (ticks c) →
      s.listed c = 1 ∧ s.wakings c = 0 ∨ s.listed c = 0 ∧ s.wakings c = 1) ∧
    (∀ c now, (c, now) ∈ s.woken → (s.calls c).start + ticks c ≤ now) ∧
    ∀ t, step ticks s .interrupt = some t → 0 < s.sleepingListSema.value →
      ∀ e ∈ t.sleepingThreadList, t.ticks < (s.calls e.call).start + ticks e.call := by
  have hi := inv_of_run h
  have hend : ∀ e ∈ s.sleepingThreadList,
      e.sleepEndTimeInTicks = (s.calls e.call).start + ticks e.call := fun e he =>
    (hi.endTime e he).trans (hfit e.call (hi.inserted_of_mem he))
  refine ⟨fun _ => ?_, fun c hc => ?_, fun c now hw => ?_, fun t ht hvalue e he => ?_⟩
  · refine hi.sorted.imp_of_mem fun ha hb hle => ?_
    rw [← hend _ ha, ← hend _ hb]
    exact hle
  · have honce := hi.once c
    rw [if_pos hc] at honce
    omega
  · rw [← hfit c (hi.inserted_of_woken hw)]
    exact hi.late c now hw
  · cases ht
    obtain ⟨hmem, hlt⟩ := hi.interrupt_asleep hvalue e he
    rw [← hend e hmem]
    exact hlt

/-- The second of two calls is woken by the third tick: the first two came while the semaphore was
taken. -/
theorem sleepList_two :
    ∃ s : State (Fin 2), run (step fun c => if c = 0 then 9 else 1) State.start
      [.call 0, .call 1, .call 0, .interrupt, .call 0, .call 0, .call 1, .call 1, .interrupt,
        .call 1, .interrupt] = some s ∧ s.woken = [(1, 3)] ∧
      ∀ c now, (c, now) ∈ s.woken → (s.calls c).start + (if c = 0 then 9 else 1) ≤ now := by
  obtain ⟨s, h, hwoken, hfit⟩ : ∃ s : State (Fin 2),
      run (step fun c => if c = 0 then 9 else 1) State.start
        [.call 0, .call 1, .call 0, .interrupt, .call 0, .call 0, .call 1, .call 1, .interrupt,
          .call 1, .interrupt] = some s ∧ s.woken = [(1, 3)] ∧
        ∀ c, int64 ((s.calls c).start + (if c = 0 then 9 else 1)) =
          (s.calls c).start + (if c = 0 then 9 else 1) := ⟨_, rfl, rfl, by decide⟩
  exact ⟨s, h, hwoken, (sleepList h fun c _ => hfit c).2.2.1⟩

/-- **No call returns before its time is over.** -/
theorem timerSleep_done {as : List (Action C)} (h : run (step ticks) State.start as = some s)
    (hdone : (s.calls c).pc = .done) (hticks : 0 ≤ ticks c) :
    ∃ now, (c, now) ∈ s.woken ∧ s.endTime ticks c ≤ now := by
  have hi := inv_of_run h
  have hown := hi.own c
  have hslept : (s.calls c).pc.slept (ticks c) = true := by
    rw [hdone]
    exact decide_eq_true hticks
  rw [if_pos hslept] at hown
  have hmem : c ∈ s.woken.map Prod.fst := by
    refine List.count_pos_iff.mp ?_
    unfold State.wakings at hown
    omega
  obtain ⟨⟨c', now⟩, hw, rfl⟩ := List.mem_map.mp hmem
  exact ⟨now, hw, hi.late _ now hw⟩

end DocMachine.Pintos
