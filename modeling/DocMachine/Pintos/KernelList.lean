import DocMachine.Lib.Linked
import Mathlib.Data.Nat.Notation

/-!
# The lists of the kernel

Model of `pintos_task0_sk4520/src/lib/kernel/list.c` (`list_init` 61-68, `list_insert` 169-178,
`list_splice` 184-204, `list_remove` 249-255, `list_reverse` 326-337, `is_sorted` 342-350,
`find_end_of_run` 358-372, `inplace_merge` 380-399, `list_sort` 405-440, `list_insert_ordered`
446-459, `list_unique` 466-486, `list_max` 493-505, `list_min` 512-524, and the functions between
them).

* An element and the two headers of a list are places in memory with two links. A pointer is an
  address or null; the memory is a partial map from addresses to links (`Elems`).
* The links are written one at a time, in the order of the source, as an element may be a header or
  its own neighbour.
* A failed assertion, what is null when it is followed and a loop that takes more turns than `fuel`
  have no result (`none`).
* `less` compares the structures around the elements, which no list function writes; it is a
  function of the addresses. The `aux` argument is left out, as it is part of `less`.
* What the functions do to a list is in `ListContents.lean`, `ListOperations.lean` and
  `ListSort.lean`; `Lists.lean` puts them together.
-/

namespace DocMachine.Pintos

/-- The address of an element. -/
abbrev Addr := ℕ

/-- `struct list_elem`. -/
structure ListElem where
  prev : Option Addr
  next : Option Addr
  deriving DecidableEq, Repr

/-- `struct list`: where its two headers are. -/
structure KernelList where
  head : Addr
  tail : Addr
  deriving DecidableEq, Repr

/-- The memory of the list elements. -/
abbrev Elems := Addr → Option ListElem

namespace ListElem

/-- `is_head`. -/
def isHead (e : ListElem) : Bool := e.prev.isNone && e.next.isSome

/-- `is_interior`. -/
def isInterior (e : ListElem) : Bool := e.prev.isSome && e.next.isSome

/-- `is_tail`. -/
def isTail (e : ListElem) : Bool := e.prev.isSome && e.next.isNone

end ListElem

namespace Elems

/-- `a->next`, if there is an element and the link is not null. -/
def next (h : Elems) (a : Addr) : Option Addr := (h a).bind ListElem.next

/-- `a->prev`. -/
def prev (h : Elems) (a : Addr) : Option Addr := (h a).bind ListElem.prev

/-- `a->next = p`. -/
def setNext (h : Elems) (a : Addr) (p : Option Addr) : Option Elems :=
  (h a).map fun e => Function.update h a (some { e with next := p })

/-- `a->prev = p`. -/
def setPrev (h : Elems) (a : Addr) (p : Option Addr) : Option Elems :=
  (h a).map fun e => Function.update h a (some { e with prev := p })

/-- `ASSERT`. -/
def assert (h : Elems) (a : Addr) (cond : ListElem → Bool) : Option Unit := do
  if cond (← h a) then return () else none

end Elems

/-- `list_init`. -/
def listInit (h : Elems) (list : KernelList) : Option Elems := do
  let h ← h.setPrev list.head none
  let h ← h.setNext list.head (some list.tail)
  let h ← h.setPrev list.tail (some list.head)
  h.setNext list.tail none

/-- `list_begin`. -/
def listBegin (h : Elems) (list : KernelList) : Option Addr := h.next list.head

/-- `list_next`. -/
def listNext (h : Elems) (elem : Addr) : Option Addr := do
  h.assert elem fun e => e.isHead || e.isInterior
  h.next elem

/-- `list_end`. -/
def listEnd (list : KernelList) : Addr := list.tail

/-- `list_prev`. -/
def listPrev (h : Elems) (elem : Addr) : Option Addr := do
  h.assert elem fun e => e.isInterior || e.isTail
  h.prev elem

/-- `list_insert`. -/
def listInsert (h : Elems) (before elem : Addr) : Option Elems := do
  h.assert before fun e => e.isInterior || e.isTail
  let h ← h.setPrev elem (← h before).prev
  let h ← h.setNext elem (some before)
  let h ← h.setNext (← h.prev before) (some elem)
  h.setPrev before (some elem)

/-- `list_splice`. -/
def listSplice (h : Elems) (before first last : Addr) : Option Elems := do
  h.assert before fun e => e.isInterior || e.isTail
  if first = last then return h
  let last ← listPrev h last
  h.assert first ListElem.isInterior
  h.assert last ListElem.isInterior
  -- Cleanly remove FIRST...LAST from its current list.
  let h ← h.setNext (← h.prev first) (← h last).next
  let h ← h.setPrev (← h.next last) (← h first).prev
  -- Splice FIRST...LAST into new list.
  let h ← h.setPrev first (← h before).prev
  let h ← h.setNext last (some before)
  let h ← h.setNext (← h.prev before) (some first)
  h.setPrev before (some last)

/-- `list_push_front`. -/
def listPushFront (h : Elems) (list : KernelList) (elem : Addr) : Option Elems := do
  listInsert h (← listBegin h list) elem

/-- `list_push_back`. -/
def listPushBack (h : Elems) (list : KernelList) (elem : Addr) : Option Elems :=
  listInsert h (listEnd list) elem

/-- The element that followed, and the memory. -/
def listRemove (h : Elems) (elem : Addr) : Option (Addr × Elems) := do
  h.assert elem ListElem.isInterior
  let h ← h.setNext (← h.prev elem) (← h elem).next
  let h ← h.setPrev (← h.next elem) (← h elem).prev
  return (← h.next elem, h)

/-- `list_empty`. -/
def listEmpty (h : Elems) (list : KernelList) : Option Bool := do
  return (← listBegin h list) = listEnd list

/-- `list_front`. -/
def listFront (h : Elems) (list : KernelList) : Option Addr := do
  if ← listEmpty h list then none else h.next list.head

/-- `list_back`. -/
def listBack (h : Elems) (list : KernelList) : Option Addr := do
  if ← listEmpty h list then none else h.prev list.tail

/-- `list_pop_front`. -/
def listPopFront (h : Elems) (list : KernelList) : Option (Addr × Elems) := do
  let front ← listFront h list
  let (_, h) ← listRemove h front
  return (front, h)

/-- `list_pop_back`. -/
def listPopBack (h : Elems) (list : KernelList) : Option (Addr × Elems) := do
  let back ← listBack h list
  let (_, h) ← listRemove h back
  return (back, h)

/-- The loop of `list_size` at `e`. -/
def listSizeFrom (h : Elems) (list : KernelList) : ℕ → Addr → Option ℕ
  | 0, _ => none
  | fuel + 1, e =>
    if e = listEnd list then some 0
    else do return (← listSizeFrom h list fuel (← listNext h e)) + 1

/-- `list_size`. -/
def listSize (h : Elems) (list : KernelList) (fuel : ℕ) : Option ℕ := do
  listSizeFrom h list fuel (← listBegin h list)

/-- `swap (&e->prev, &e->next)`. -/
def swapLinks (h : Elems) (e : Addr) : Option Elems :=
  (h e).map fun r => Function.update h e (some ⟨r.next, r.prev⟩)

/-- The loop of `list_reverse` at `e`. -/
def listReverseFrom (list : KernelList) : ℕ → Elems → Addr → Option Elems
  | 0, _, _ => none
  | fuel + 1, h, e =>
    if e = listEnd list then some h
    else do
      let h ← swapLinks h e
      listReverseFrom list fuel h (← h.prev e)

/-- `list_reverse`. -/
def listReverse (h : Elems) (list : KernelList) (fuel : ℕ) : Option Elems := do
  if ← listEmpty h list then return h
  let h ← listReverseFrom list fuel h (← listBegin h list)
  -- swap (&list->head.next, &list->tail.prev)
  let first := h.next list.head
  let last := h.prev list.tail
  let h ← h.setNext list.head last
  let h ← h.setPrev list.tail first
  -- swap (&list->head.next->prev, &list->tail.prev->next)
  let a ← h.next list.head
  let b ← h.prev list.tail
  let p := h.prev a
  let q := h.next b
  let h ← h.setPrev a q
  h.setNext b p

section

variable (less : Addr → Addr → Bool)

/-- The loop of `is_sorted`. -/
def isSortedFrom (h : Elems) (b : Addr) : ℕ → Addr → Option Bool
  | 0, _ => none
  | fuel + 1, a => do
    let a ← listNext h a
    if a = b then return true
    if less a (← listPrev h a) then return false
    isSortedFrom h b fuel a

/-- `is_sorted`. -/
def isSorted (h : Elems) (fuel : ℕ) (a b : Addr) : Option Bool :=
  if a ≠ b then isSortedFrom less h b fuel a else some true

/-- The loop of `find_end_of_run`. -/
def findEndOfRunFrom (h : Elems) (b : Addr) : ℕ → Addr → Option Addr
  | 0, _ => none
  | fuel + 1, a => do
    let a ← listNext h a
    if a = b then return a
    if less a (← listPrev h a) then return a
    findEndOfRunFrom h b fuel a

/-- `find_end_of_run`: the assertion that there is a run, then the loop. -/
def findEndOfRun (h : Elems) (fuel : ℕ) (a b : Addr) : Option Addr :=
  if a = b then none else findEndOfRunFrom less h b fuel a

/-- The loop of `inplace_merge`. -/
def inplaceMergeFrom (b1 : Addr) : ℕ → Elems → Addr → Addr → Option Elems
  | 0, _, _, _ => none
  | fuel + 1, h, a0, a1b0 =>
    if a0 ≠ a1b0 ∧ a1b0 ≠ b1 then
      if !less a1b0 a0 then do
        inplaceMergeFrom b1 fuel h (← listNext h a0) a1b0
      else do
        let a1b0 ← listNext h a1b0
        let h ← listSplice h a0 (← listPrev h a1b0) a1b0
        inplaceMergeFrom b1 fuel h a0 a1b0
    else some h

/-- `inplace_merge`: the assertions that both runs are sorted, then the loop. -/
def inplaceMerge (h : Elems) (fuel : ℕ) (a0 a1b0 b1 : Addr) : Option Elems := do
  if !(← isSorted less h fuel a0 a1b0) then none
  if !(← isSorted less h fuel a1b0 b1) then none
  inplaceMergeFrom less b1 fuel h a0 a1b0

/-- The inner loop of `list_sort` at `a0`: the memory and `output_run_cnt`. -/
def listSortPass (list : KernelList) (fuel : ℕ) : ℕ → Elems → Addr → ℕ → Option (Elems × ℕ)
  | 0, _, _, _ => none
  | turns + 1, h, a0, outputRunCnt =>
    if a0 = listEnd list then some (h, outputRunCnt)
    else do
      let outputRunCnt := outputRunCnt + 1
      let a1b0 ← findEndOfRun less h fuel a0 (listEnd list)
      if a1b0 = listEnd list then return (h, outputRunCnt)
      let b1 ← findEndOfRun less h fuel a1b0 (listEnd list)
      let h ← inplaceMerge less h fuel a0 a1b0 b1
      listSortPass list fuel turns h b1 outputRunCnt

/-- The outer loop of `list_sort`. -/
def listSortLoop (list : KernelList) (fuel : ℕ) : ℕ → Elems → Option Elems
  | 0, _ => none
  | turns + 1, h => do
    let (h, outputRunCnt) ← listSortPass less list fuel fuel h (← listBegin h list) 0
    if 1 < outputRunCnt then listSortLoop list fuel turns h else return h

/-- `list_sort`, with its last assertion. -/
def listSort (h : Elems) (list : KernelList) (fuel : ℕ) : Option Elems := do
  let h ← listSortLoop less list fuel fuel h
  if ← isSorted less h fuel (← listBegin h list) (listEnd list) then return h else none

/-- The loop of `list_insert_ordered`: the element to insert before. -/
def listInsertOrderedFrom (h : Elems) (list : KernelList) (elem : Addr) : ℕ → Addr → Option Addr
  | 0, _ => none
  | fuel + 1, e =>
    if e = listEnd list then some e
    else if less elem e then some e
    else do listInsertOrderedFrom h list elem fuel (← listNext h e)

/-- `list_insert_ordered`. -/
def listInsertOrdered (h : Elems) (list : KernelList) (elem : Addr) (fuel : ℕ) :
    Option Elems := do
  listInsert h (← listInsertOrderedFrom less h list elem fuel (← listBegin h list)) elem

/-- The loop of `list_unique`. -/
def listUniqueFrom (list : KernelList) (duplicates : Option KernelList) :
    ℕ → Elems → Addr → Option Elems
  | 0, _, _ => none
  | fuel + 1, h, elem => do
    let next ← listNext h elem
    if next = listEnd list then return h
    if !less elem next && !less next elem then
      let (_, h) ← listRemove h next
      match duplicates with
      | none => listUniqueFrom list duplicates fuel h elem
      | some duplicates' =>
        listUniqueFrom list duplicates fuel (← listPushBack h duplicates' next) elem
    else listUniqueFrom list duplicates fuel h next

/-- `list_unique`. -/
def listUnique (h : Elems) (list : KernelList) (duplicates : Option KernelList) (fuel : ℕ) :
    Option Elems := do
  if ← listEmpty h list then return h
  listUniqueFrom less list duplicates fuel h (← listBegin h list)

/-- The loop of `list_max`. -/
def listMaxFrom (h : Elems) (list : KernelList) : ℕ → Addr → Addr → Option Addr
  | 0, _, _ => none
  | fuel + 1, max, e =>
    if e = listEnd list then some max
    else do listMaxFrom h list fuel (if less max e then e else max) (← listNext h e)

/-- `list_max`. -/
def listMax (h : Elems) (list : KernelList) (fuel : ℕ) : Option Addr := do
  let max ← listBegin h list
  if max = listEnd list then return max
  listMaxFrom less h list fuel max (← listNext h max)

/-- The loop of `list_min`. -/
def listMinFrom (h : Elems) (list : KernelList) : ℕ → Addr → Addr → Option Addr
  | 0, _, _ => none
  | fuel + 1, min, e =>
    if e = listEnd list then some min
    else do listMinFrom h list fuel (if less e min then e else min) (← listNext h e)

/-- `list_min`. -/
def listMin (h : Elems) (list : KernelList) (fuel : ℕ) : Option Addr := do
  let min ← listBegin h list
  if min = listEnd list then return min
  listMinFrom less h list fuel min (← listNext h min)

end

end DocMachine.Pintos
