import DocMachine.Pintos.KernelList

/-!
# What a list holds

`Holds h list xs`: the memory links the headers of the list and the elements `xs` between them. For
the functions of `pintos_task0_sk4520/src/lib/kernel/list.c` (61-255) that change a list: what it
holds after each of them, and that nothing outside the list is written.

* A place in the list is the element a rest begins with (`from`), or the one a first part ends with
  (`upTo`); with an empty rest it is a header.
* A function is first described by the links that it writes (`setNext_writes` and the like), and
  then by the blocks of the list that these links join: the library on doubly linked sequences does
  the rest.
* `list_splice` takes elements from any list to any place, also of their own list, where the place
  may be in front of them, behind them or at either of their ends.

Results:
* `listInsert_holds` and `listRemove_holds`: insertion before any place, removal of any element.
* `listSplice_back`, `listSplice_forth`, `listSplice_stay` and `listSplice_other`: the four cases of
  splicing.
* `Holds.within`: a list elsewhere in the memory is not changed.
-/

namespace DocMachine.Pintos

open DocMachine.Lib.Pointers

variable {h h' : Elems} {list : KernelList} {a b e : Addr} {p : Option Addr}
  {xs as bs X Y : List Addr}

/-! ## Writes -/

section

variable {r : ListElem}

theorem Elems.next_eq (hr : h a = some r) : h.next a = r.next := by
  rw [next, hr, Option.bind_some]

theorem Elems.prev_eq (hr : h a = some r) : h.prev a = r.prev := by
  rw [prev, hr, Option.bind_some]

end

/-- The memory after some writes to the links of elements that exist. -/
structure Writes (h h' : Elems) (next prev : Addr → Option Addr) : Prop where
  next : h'.next = next
  prev : h'.prev = prev
  isSome : ∀ a, (h' a).isSome = (h a).isSome

theorem setNext_writes (ha : (h a).isSome) (p : Option Addr) :
    ∃ h', h.setNext a p = some h' ∧ Writes h h' (Function.update h.next a p) h.prev := by
  obtain ⟨r, hr⟩ := Option.isSome_iff_exists.mp ha
  refine ⟨_, by rw [Elems.setNext, hr]; rfl, funext fun b => ?_, funext fun b => ?_, fun b => ?_⟩
  · by_cases hb : b = a
    · subst hb
      simp [Elems.next]
    · simp [Elems.next, hb]
  · by_cases hb : b = a
    · subst hb
      simp [Elems.prev, hr]
    · simp [Elems.prev, hb]
  · by_cases hb : b = a
    · subst hb
      simp [hr]
    · simp [hb]

theorem setPrev_writes (ha : (h a).isSome) (p : Option Addr) :
    ∃ h', h.setPrev a p = some h' ∧ Writes h h' h.next (Function.update h.prev a p) := by
  obtain ⟨r, hr⟩ := Option.isSome_iff_exists.mp ha
  refine ⟨_, by rw [Elems.setPrev, hr]; rfl, funext fun b => ?_, funext fun b => ?_, fun b => ?_⟩
  · by_cases hb : b = a
    · subst hb
      simp [Elems.next, hr]
    · simp [Elems.next, hb]
  · by_cases hb : b = a
    · subst hb
      simp [Elems.prev]
    · simp [Elems.prev, hb]
  · by_cases hb : b = a
    · subst hb
      simp [hr]
    · simp [hb]

theorem isSome_of_prev (ha : h.prev a = some b) : (h a).isSome := by
  cases hr : h a with
  | none => simp [Elems.prev, hr] at ha
  | some r => rfl

theorem isSome_of_next (ha : h.next a = some b) : (h a).isSome := by
  cases hr : h a with
  | none => simp [Elems.next, hr] at ha
  | some r => rfl

/-! ## Assertions -/

theorem assert_prev (hb : h.prev b = some a) :
    h.assert b (fun e => e.isInterior || e.isTail) = some () := by
  obtain ⟨r, hr⟩ := Option.isSome_iff_exists.mp (isSome_of_prev hb)
  rw [Elems.prev_eq hr] at hb
  cases hn : r.next <;> simp [Elems.assert, hr, ListElem.isInterior, ListElem.isTail, hb, hn]

theorem assert_next (ha : h.next a = some b) :
    h.assert a (fun e => e.isHead || e.isInterior) = some () := by
  obtain ⟨r, hr⟩ := Option.isSome_iff_exists.mp (isSome_of_next ha)
  rw [Elems.next_eq hr] at ha
  cases hp : r.prev <;> simp [Elems.assert, hr, ListElem.isInterior, ListElem.isHead, ha, hp]

theorem assert_interior (ha : h.next e = some b) (hb : h.prev e = some a) :
    h.assert e ListElem.isInterior = some () := by
  obtain ⟨r, hr⟩ := Option.isSome_iff_exists.mp (isSome_of_next ha)
  rw [Elems.next_eq hr] at ha
  rw [Elems.prev_eq hr] at hb
  simp [Elems.assert, hr, ListElem.isInterior, ha, hb]

theorem listNext_eq (ha : h.next a = some b) : listNext h a = some b := by
  rw [listNext, assert_next ha]
  exact ha

theorem listPrev_eq (hb : h.prev b = some a) : listPrev h b = some a := by
  rw [listPrev, assert_prev hb]
  exact hb

/-! ## Single operations -/

theorem listInsert_writes {p : Addr} (hb : h.prev b = some p) (hp : (h p).isSome)
    (he : (h e).isSome) (hbe : b ≠ e) :
    ∃ h', listInsert h b e = some h' ∧
      Writes h h' (Function.update (Function.update h.next e (some b)) p (some e))
        (Function.update (Function.update h.prev e (some p)) b (some e)) := by
  obtain ⟨r, hr⟩ := Option.isSome_iff_exists.mp (isSome_of_prev hb)
  have hrp : r.prev = some p := (Elems.prev_eq hr).symm.trans hb
  obtain ⟨h₁, hset₁, hw₁⟩ := setPrev_writes he r.prev
  obtain ⟨h₂, hset₂, hw₂⟩ :=
    setNext_writes (h := h₁) (a := e) (by rw [hw₁.isSome]; exact he) (some b)
  have hb₂ : h₂.prev b = some p := by
    rw [hw₂.prev, hw₁.prev, Function.update_of_ne hbe, hb]
  obtain ⟨h₃, hset₃, hw₃⟩ := setNext_writes (h := h₂) (a := p)
    (by rw [hw₂.isSome, hw₁.isSome]; exact hp) (some e)
  obtain ⟨h₄, hset₄, hw₄⟩ := setPrev_writes (h := h₃) (a := b)
    (by rw [hw₃.isSome, hw₂.isSome, hw₁.isSome, hr]; rfl) (some e)
  refine ⟨h₄, ?_, ?_, ?_, fun a => ?_⟩
  · rw [listInsert, assert_prev hb]
    simp only [Option.bind_eq_bind, Option.bind_some, hr, hset₁, hset₂, hb₂, hset₃, hset₄]
  · rw [hw₄.next, hw₃.next, hw₂.next, hw₁.next]
  · rw [hw₄.prev, hw₃.prev, hw₂.prev, hw₁.prev, hrp]
  · rw [hw₄.isSome, hw₃.isSome, hw₂.isSome, hw₁.isSome]

theorem listRemove_writes {p q : Addr} (hp : h.prev e = some p) (hq : h.next e = some q)
    (hpSome : (h p).isSome) (hqSome : (h q).isSome) (hpe : p ≠ e) :
    ∃ h', listRemove h e = some (q, h') ∧
      Writes h h' (Function.update h.next p (some q)) (Function.update h.prev q (some p)) := by
  obtain ⟨h₁, hset₁, hw₁⟩ := setNext_writes hpSome (some q)
  obtain ⟨r, hr⟩ := Option.isSome_iff_exists.mp (isSome_of_prev hp)
  have hrq : r.next = some q := (Elems.next_eq hr).symm.trans hq
  obtain ⟨r₁, hr₁⟩ : ∃ r, h₁ e = some r := Option.isSome_iff_exists.mp (by rw [hw₁.isSome, hr]; rfl)
  have hrp : r₁.prev = some p := by rw [← Elems.prev_eq hr₁, hw₁.prev, hp]
  have hq₁ : h₁.next e = some q := by rw [hw₁.next, Function.update_of_ne hpe.symm, hq]
  obtain ⟨h₂, hset₂, hw₂⟩ := setPrev_writes (h := h₁) (a := q) (by rw [hw₁.isSome]; exact hqSome)
    (some p)
  have hq₂ : h₂.next e = some q := by rw [hw₂.next, hq₁]
  refine ⟨h₂, ?_, ?_, ?_, fun a => ?_⟩
  · rw [listRemove, assert_interior hq hp]
    simp only [Option.bind_eq_bind, Option.bind_some, hp, hr, hrq, hset₁, hq₁, hr₁, hrp, hset₂, hq₂]
    rfl
  · rw [hw₂.next, hw₁.next]
  · rw [hw₂.prev, hw₁.prev]
  · rw [hw₂.isSome, hw₁.isSome]

/-- `r` is what `before->prev` is when the elements have been taken out. -/
theorem listSplice_writes {before first last p q r : Addr} (hp : h.prev first = some p)
    (hq : h.next last = some q) (hlast : h.prev q = some last) (hfirst : (h.next first).isSome)
    (hprev : (h.prev last).isSome) (hpSome : (h p).isSome)
    (hr : Function.update h.prev q (some p) before = some r) (hrSome : (h r).isSome)
    (hassert : (h.prev before).isSome) (hne : first ≠ q) (hlp : last ≠ p)
    (hfb : first ≠ before) :
    ∃ h', listSplice h before first q = some h' ∧
      Writes h h' (Function.update (Function.update (Function.update h.next p (some q))
          last (some before)) r (some first))
        (Function.update (Function.update (Function.update h.prev q (some p))
          first (some r)) before (some last)) := by
  obtain ⟨b, hb⟩ := Option.isSome_iff_exists.mp hassert
  obtain ⟨f, hf⟩ := Option.isSome_iff_exists.mp hfirst
  obtain ⟨l, hl⟩ := Option.isSome_iff_exists.mp hprev
  have hbSome := isSome_of_prev hb
  have hfSome := isSome_of_next hf
  have hlSome := isSome_of_next hq
  obtain ⟨lr, hlr⟩ := Option.isSome_iff_exists.mp hlSome
  have hlq : lr.next = some q := (Elems.next_eq hlr).symm.trans hq
  obtain ⟨h₁, hset₁, hw₁⟩ := setNext_writes hpSome (some q)
  have hq₁ : h₁.next last = some q := by rw [hw₁.next, Function.update_of_ne hlp, hq]
  obtain ⟨fr, hfr⟩ : ∃ r, h₁ first = some r :=
    Option.isSome_iff_exists.mp (by rw [hw₁.isSome]; exact hfSome)
  have hfp : fr.prev = some p := by rw [← Elems.prev_eq hfr, hw₁.prev, hp]
  obtain ⟨h₂, hset₂, hw₂⟩ := setPrev_writes (h := h₁) (a := q)
    (by rw [hw₁.isSome]; exact isSome_of_prev hlast) (some p)
  have hb₂ : h₂.prev before = some r := by rw [hw₂.prev, hw₁.prev, hr]
  obtain ⟨br, hbr⟩ : ∃ r, h₂ before = some r :=
    Option.isSome_iff_exists.mp (by rw [hw₂.isSome, hw₁.isSome]; exact hbSome)
  have hbp : br.prev = some r := by rw [← Elems.prev_eq hbr, hb₂]
  obtain ⟨h₃, hset₃, hw₃⟩ := setPrev_writes (h := h₂) (a := first)
    (by rw [hw₂.isSome, hw₁.isSome]; exact hfSome) (some r)
  obtain ⟨h₄, hset₄, hw₄⟩ := setNext_writes (h := h₃) (a := last)
    (by rw [hw₃.isSome, hw₂.isSome, hw₁.isSome]; exact hlSome) (some before)
  have hb₄ : h₄.prev before = some r := by
    rw [hw₄.prev, hw₃.prev, Function.update_of_ne hfb.symm, hb₂]
  obtain ⟨h₅, hset₅, hw₅⟩ := setNext_writes (h := h₄) (a := r)
    (by rw [hw₄.isSome, hw₃.isSome, hw₂.isSome, hw₁.isSome]; exact hrSome) (some first)
  obtain ⟨h₆, hset₆, hw₆⟩ := setPrev_writes (h := h₅) (a := before)
    (by rw [hw₅.isSome, hw₄.isSome, hw₃.isSome, hw₂.isSome, hw₁.isSome]; exact hbSome) (some last)
  refine ⟨h₆, ?_, ?_, ?_, fun a => ?_⟩
  · rw [listSplice, assert_prev hb]
    simp only [Option.bind_eq_bind, Option.bind_some, if_neg hne, listPrev_eq hlast,
      assert_interior hf hp, assert_interior hq hl, hp, hlr, hlq, hset₁, hq₁, hfr, hfp, hset₂, hbr,
      hbp, hset₃, hset₄, hb₄, hset₅, hset₆]
  · rw [hw₆.next, hw₅.next, hw₄.next, hw₃.next, hw₂.next, hw₁.next]
  · rw [hw₆.prev, hw₅.prev, hw₄.prev, hw₃.prev, hw₂.prev, hw₁.prev]
  · rw [hw₆.isSome, hw₅.isSome, hw₄.isSome, hw₃.isSome, hw₂.isSome, hw₁.isSome]

/-! ## The contents of a list -/

/-- The headers and the elements, from the first to the last. -/
def KernelList.chain (list : KernelList) (xs : List Addr) : List Addr :=
  list.head :: xs ++ [list.tail]

@[simp] theorem mem_chain : a ∈ list.chain xs ↔ a = list.head ∨ a ∈ xs ∨ a = list.tail := by
  simp [KernelList.chain]

/-- The list holds the elements `xs`. -/
structure Holds (h : Elems) (list : KernelList) (xs : List Addr) : Prop where
  linked : Linked h.next h.prev (list.chain xs)
  head : h.prev list.head = none
  tail : h.next list.tail = none
  nodup : (list.chain xs).Nodup

/-- The place that a rest of the list begins with. -/
def KernelList.from (list : KernelList) (bs : List Addr) : Addr := bs.headD list.tail

/-- The place that a first part of the list ends with. -/
def KernelList.upTo (list : KernelList) (as : List Addr) : Addr := as.getLastD list.head

theorem head?_rest (list : KernelList) (bs : List Addr) :
    (bs ++ [list.tail]).head? = some (list.from bs) := by
  cases bs <;> rfl

theorem getLast?_part (list : KernelList) (as : List Addr) :
    (list.head :: as).getLast? = some (list.upTo as) := by
  rw [KernelList.upTo, List.getLast?_cons, List.getLastD_eq_getLast?]

theorem chain_append (list : KernelList) (as bs : List Addr) :
    list.chain (as ++ bs) = (list.head :: as) ++ (bs ++ [list.tail]) := by
  simp [KernelList.chain]

/-- The link between two parts of the list. -/
theorem Holds.link (hold : Holds h list (as ++ bs)) :
    Link h.next h.prev (list.upTo as) (list.from bs) := by
  have hlinked := hold.linked
  rw [chain_append] at hlinked
  exact (linked_append.mp hlinked).2.2 _ (getLast?_part list as) _ (head?_rest list bs)

theorem Holds.isSome (hold : Holds h list xs) (ha : a ∈ list.chain xs) : (h a).isSome := by
  obtain ⟨l₁, l₂, heq⟩ := List.append_of_mem ha
  have hlinked := hold.linked
  rw [heq] at hlinked
  cases l₂ with
  | nil =>
    -- the last one has an element before it
    have hne : l₁ ≠ [] := by
      rintro rfl
      simp [KernelList.chain] at heq
    obtain ⟨c, hc⟩ := List.getLast?_isSome.mpr hne |> Option.isSome_iff_exists.mp
    exact isSome_of_prev ((linked_append.mp hlinked).2.2 c hc a rfl).2
  | cons b l₂ => exact isSome_of_next hlinked.next_eq

/-- The elements between the headers have both links. -/
theorem Holds.interior (hold : Holds h list xs) (ha : a ∈ xs) :
    (h.next a).isSome ∧ (h.prev a).isSome := by
  obtain ⟨as, bs, rfl⟩ := List.append_of_mem ha
  have hold' : Holds h list ((as ++ [a]) ++ bs) := by simpa using hold
  have hlast : list.upTo (as ++ [a]) = a := by simp [KernelList.upTo]
  have hnext := hold'.link.1
  have hprev : h.prev a = some (list.upTo as) := hold.link.2
  rw [hlast] at hnext
  rw [hnext, hprev]
  exact ⟨rfl, rfl⟩

/-- Only links of the elements `l` are written. -/
structure Within (l : List Addr) (h h' : Elems) : Prop where
  next : ∀ a, a ∉ l → h'.next a = h.next a
  prev : ∀ a, a ∉ l → h'.prev a = h.prev a
  isSome : ∀ a, (h' a).isSome = (h a).isSome

theorem Within.refl (l : List Addr) (h : Elems) : Within l h h :=
  ⟨fun _ _ => rfl, fun _ _ => rfl, fun _ => rfl⟩

theorem Within.trans {h'' : Elems} {l : List Addr} (hw : Within l h h') (hw' : Within l h' h'') :
    Within l h h'' :=
  ⟨fun a ha => (hw'.next a ha).trans (hw.next a ha),
    fun a ha => (hw'.prev a ha).trans (hw.prev a ha),
    fun a => (hw'.isSome a).trans (hw.isSome a)⟩

theorem Within.mono {l l' : List Addr} (hw : Within l h h') (hl : ∀ a ∈ l, a ∈ l') :
    Within l' h h' :=
  ⟨fun a ha => hw.next a fun hmem => ha (hl a hmem),
    fun a ha => hw.prev a fun hmem => ha (hl a hmem),
    hw.isSome⟩

/-- A list elsewhere in the memory is not changed. -/
theorem Holds.within {l : List Addr} (hold : Holds h list xs) (hw : Within l h h')
    (hl : ∀ a ∈ list.chain xs, a ∉ l) : Holds h' list xs := by
  have hhead : list.head ∈ list.chain xs := List.mem_cons_self
  have htail : list.tail ∈ list.chain xs := by simp [KernelList.chain]
  refine ⟨hold.linked.congr hold.nodup (fun a ha _ => hw.next a (hl a ha))
    (fun b hb _ => hw.prev b (hl b hb)), ?_, ?_, hold.nodup⟩
  · rw [hw.prev _ (hl _ hhead), hold.head]
  · rw [hw.next _ (hl _ htail), hold.tail]

/-- An empty list. -/
theorem listInit_holds (hhead : (h list.head).isSome) (htail : (h list.tail).isSome)
    (hne : list.head ≠ list.tail) :
    ∃ h', listInit h list = some h' ∧ Holds h' list [] ∧ Within (list.chain []) h h' := by
  obtain ⟨h₁, hset₁, hw₁⟩ := setPrev_writes hhead none
  obtain ⟨h₂, hset₂, hw₂⟩ := setNext_writes (h := h₁) (a := list.head)
    (by rw [hw₁.isSome]; exact hhead) (some list.tail)
  obtain ⟨h₃, hset₃, hw₃⟩ := setPrev_writes (h := h₂) (a := list.tail)
    (by rw [hw₂.isSome, hw₁.isSome]; exact htail) (some list.head)
  obtain ⟨h₄, hset₄, hw₄⟩ := setNext_writes (h := h₃) (a := list.tail)
    (by rw [hw₃.isSome, hw₂.isSome, hw₁.isSome]; exact htail) none
  have hnext : h₄.next = Function.update (Function.update h.next list.head (some list.tail))
      list.tail none := by rw [hw₄.next, hw₃.next, hw₂.next, hw₁.next]
  have hprev : h₄.prev = Function.update (Function.update h.prev list.head none) list.tail
      (some list.head) := by rw [hw₄.prev, hw₃.prev, hw₂.prev, hw₁.prev]
  refine ⟨h₄, ?_, ⟨?_, ?_, ?_, by simpa [KernelList.chain] using hne⟩, ?_, ?_, fun a => ?_⟩
  · simp [listInit, hset₁, hset₂, hset₃, hset₄]
  · refine .cons_cons ⟨?_, ?_⟩ (.singleton _)
    · rw [hnext, Function.update_of_ne hne, Function.update_self]
    · rw [hprev, Function.update_self]
  · rw [hprev, Function.update_of_ne hne, Function.update_self]
  · rw [hnext, Function.update_self]
  · intro a ha
    rw [mem_chain, not_or, not_or] at ha
    rw [hnext, Function.update_of_ne ha.2.2, Function.update_of_ne ha.1]
  · intro a ha
    rw [mem_chain, not_or, not_or] at ha
    rw [hprev, Function.update_of_ne ha.2.2, Function.update_of_ne ha.1]
  · rw [hw₄.isSome, hw₃.isSome, hw₂.isSome, hw₁.isSome]

theorem upTo_mem (list : KernelList) (as : List Addr) : list.upTo as ∈ list.head :: as :=
  List.mem_of_getLast? (getLast?_part list as)

theorem from_mem (list : KernelList) (bs : List Addr) : list.from bs ∈ bs ++ [list.tail] :=
  List.mem_of_head? (head?_rest list bs)

/-- **Insertion** before any place of the list. -/
theorem listInsert_holds (hold : Holds h list (as ++ bs)) (he : (h e).isSome)
    (hnew : e ∉ list.chain (as ++ bs)) :
    ∃ h', listInsert h (list.from bs) e = some h' ∧ Holds h' list (as ++ e :: bs) ∧
      Within (list.chain (as ++ e :: bs)) h h' := by
  have hlink := hold.link
  have hlinked := hold.linked
  have hnodup := hold.nodup
  rw [chain_append] at hlinked hnodup hnew
  have hpmem := upTo_mem list as
  have hqmem := from_mem list bs
  have hnodup' : ((list.head :: as) ++ e :: (bs ++ [list.tail])).Nodup := by
    rw [List.nodup_middle]
    exact List.nodup_cons.mpr ⟨hnew, hnodup⟩
  rw [List.mem_append, not_or] at hnew
  have hpe : list.upTo as ≠ e := fun heq => hnew.1 (heq ▸ hpmem)
  have hqe : list.from bs ≠ e := fun heq => hnew.2 (heq ▸ hqmem)
  have hpq : list.upTo as ≠ list.from bs :=
    (List.nodup_append.mp hnodup).2.2 _ hpmem _ hqmem
  obtain ⟨h', hinsert, hw⟩ := listInsert_writes hlink.2 (isSome_of_next hlink.1) he hqe
  have hnext : ∀ a, a ≠ list.upTo as → a ≠ e → h'.next a = h.next a := fun a hap hae => by
    rw [hw.next, Function.update_of_ne hap, Function.update_of_ne hae]
  have hprev : ∀ b, b ≠ list.from bs → b ≠ e → h'.prev b = h.prev b := fun b hbq hbe => by
    rw [hw.prev, Function.update_of_ne hbq, Function.update_of_ne hbe]
  have hchain : list.chain (as ++ e :: bs) = (list.head :: as) ++ e :: (bs ++ [list.tail]) := by
    simp [KernelList.chain]
  refine ⟨h', hinsert, ⟨?_, ?_, ?_, hchain ▸ hnodup'⟩, ?_, ?_, hw.isSome⟩
  · rw [hchain]
    refine hlinked.insert hnodup' (getLast?_part list as) (head?_rest list bs) ⟨?_, ?_⟩ ⟨?_, ?_⟩
      hnext hprev
    · rw [hw.next, Function.update_self]
    · rw [hw.prev, Function.update_of_ne hqe.symm, Function.update_self]
    · rw [hw.next, Function.update_of_ne hpe.symm, Function.update_self]
    · rw [hw.prev, Function.update_self]
  · rw [hprev, hold.head]
    · exact (List.nodup_append.mp hnodup).2.2 _ List.mem_cons_self _ hqmem
    · exact fun heq => hnew.1 (heq ▸ List.mem_cons_self)
  · have htail : list.tail ∈ bs ++ [list.tail] := by simp
    rw [hnext, hold.tail]
    · exact ((List.nodup_append.mp hnodup).2.2 _ hpmem _ htail).symm
    · exact fun heq => hnew.2 (heq ▸ htail)
  · intro a ha
    rw [hchain, List.mem_append, not_or] at ha
    exact hnext a (fun heq => ha.1 (heq ▸ hpmem)) fun heq => ha.2 (heq ▸ List.mem_cons_self)
  · intro a ha
    rw [hchain, List.mem_append, not_or] at ha
    exact hprev a (fun heq => ha.2 (heq ▸ List.mem_cons_of_mem e hqmem))
      fun heq => ha.2 (heq ▸ List.mem_cons_self)

theorem Holds.nodup_middle (hold : Holds h list (as ++ e :: bs)) :
    e ∉ list.chain (as ++ bs) ∧ (list.chain (as ++ bs)).Nodup := by
  have hnodup := hold.nodup
  have hchain : list.chain (as ++ e :: bs) = (list.head :: as) ++ e :: (bs ++ [list.tail]) := by
    simp [KernelList.chain]
  rw [hchain, List.nodup_middle] at hnodup
  rw [chain_append]
  exact List.nodup_cons.mp hnodup

/-- **Removal** of any element. -/
theorem listRemove_holds (hold : Holds h list (as ++ e :: bs)) :
    ∃ h', listRemove h e = some (list.from bs, h') ∧ Holds h' list (as ++ bs) ∧
      Within (list.chain (as ++ bs)) h h' := by
  have hlink : Link h.next h.prev (list.upTo as) e := hold.link
  have hlink' : Link h.next h.prev e (list.from bs) := by
    have hold' : Holds h list ((as ++ [e]) ++ bs) := by simpa using hold
    have hlast : list.upTo (as ++ [e]) = e := by simp [KernelList.upTo]
    rw [← hlast]
    exact hlast ▸ hold'.link
  have hlinked := hold.linked
  have hnodup := hold.nodup
  have hchain : list.chain (as ++ e :: bs) = (list.head :: as) ++ e :: (bs ++ [list.tail]) := by
    simp [KernelList.chain]
  rw [hchain] at hlinked hnodup
  have hpmem := upTo_mem list as
  have hqmem := from_mem list bs
  have hnodup' := hold.nodup_middle
  rw [chain_append] at hnodup'
  have hpe : list.upTo as ≠ e := fun heq => hnodup'.1 (List.mem_append_left _ (heq ▸ hpmem))
  obtain ⟨h', hremove, hw⟩ := listRemove_writes hlink.2 hlink'.1 (isSome_of_next hlink.1)
    (isSome_of_prev hlink'.2) hpe
  have hnext : ∀ a, a ≠ list.upTo as → h'.next a = h.next a := fun a hap => by
    rw [hw.next, Function.update_of_ne hap]
  have hprev : ∀ b, b ≠ list.from bs → h'.prev b = h.prev b := fun b hbq => by
    rw [hw.prev, Function.update_of_ne hbq]
  have hdisjoint := (List.nodup_append.mp hnodup'.2).2.2
  have htail : list.tail ∈ bs ++ [list.tail] := by simp
  refine ⟨h', hremove, ⟨?_, ?_, ?_, chain_append list as bs ▸ hnodup'.2⟩, ?_, ?_, hw.isSome⟩
  · rw [chain_append]
    refine hlinked.remove hnodup (getLast?_part list as) (head?_rest list bs) ⟨?_, ?_⟩ hnext hprev
    · rw [hw.next, Function.update_self]
    · rw [hw.prev, Function.update_self]
  · rw [hprev _ (hdisjoint _ List.mem_cons_self _ hqmem), hold.head]
  · rw [hnext _ (hdisjoint _ hpmem _ htail).symm, hold.tail]
  · intro a ha
    rw [chain_append, List.mem_append, not_or] at ha
    exact hnext a fun heq => ha.1 (heq ▸ hpmem)
  · intro a ha
    rw [chain_append, List.mem_append, not_or] at ha
    exact hprev a fun heq => ha.2 (heq ▸ hqmem)

/-! ## Splicing -/

section

variable {x₀ x₁ y₀ y₁ : Addr}

theorem chain_blocks (list : KernelList) (as X Y bs : List Addr) :
    list.chain (as ++ (X ++ (Y ++ bs))) =
      (list.head :: as) ++ (X ++ (Y ++ (bs ++ [list.tail]))) := by
  simp [KernelList.chain]

/-- Two blocks of the list have changed places. -/
theorem Holds.swapped (hold : Holds h list (as ++ (X ++ (Y ++ bs)))) (hx₀ : X.head? = some x₀)
    (hx₁ : X.getLast? = some x₁) (hy₀ : Y.head? = some y₀) (hy₁ : Y.getLast? = some y₁)
    (hpy : Link h'.next h'.prev (list.upTo as) y₀) (hyx : Link h'.next h'.prev y₁ x₀)
    (hxq : Link h'.next h'.prev x₁ (list.from bs))
    (hnext : ∀ a, a ≠ list.upTo as → a ≠ x₁ → a ≠ y₁ → h'.next a = h.next a)
    (hprev : ∀ b, b ≠ list.from bs → b ≠ x₀ → b ≠ y₀ → h'.prev b = h.prev b)
    (hsome : ∀ a, (h' a).isSome = (h a).isSome) :
    Holds h' list (as ++ (Y ++ (X ++ bs))) ∧
      Within (list.chain (as ++ (X ++ (Y ++ bs)))) h h' := by
  have hlinked := hold.linked
  have hnodup := hold.nodup
  rw [chain_blocks] at hlinked hnodup
  have hlinked' := hlinked.swap hnodup (getLast?_part list as) (head?_rest list bs) hx₀ hx₁ hy₀ hy₁
    hpy hyx hxq hnext hprev
  have hpmem := upTo_mem list as
  have hqmem := from_mem list bs
  have hmemX := And.intro (List.mem_of_head? hx₀) (List.mem_of_getLast? hx₁)
  have hmemY := And.intro (List.mem_of_head? hy₀) (List.mem_of_getLast? hy₁)
  have htail : list.tail ∈ bs ++ [list.tail] := by simp
  have hhead : list.head ∈ list.head :: as := List.mem_cons_self
  have hperm : ((list.head :: as) ++ (Y ++ (X ++ (bs ++ [list.tail])))).Nodup := by
    refine List.Perm.nodup ?_ hnodup
    have hswap := (List.perm_append_comm : (X ++ Y).Perm (Y ++ X)).append_right (bs ++ [list.tail])
    exact List.Perm.append_left _ (by simpa only [List.append_assoc] using hswap)
  simp only [List.nodup_append, List.mem_append] at hnodup
  obtain ⟨-, ⟨-, ⟨-, -, hYB⟩, hXYB⟩, hAXYB⟩ := hnodup
  refine ⟨⟨?_, ?_, ?_, ?_⟩, ?_, ?_, hsome⟩
  · rw [chain_blocks]
    exact hlinked'
  · rw [hprev, hold.head] <;> grind
  · rw [hnext, hold.tail] <;> grind
  · rw [chain_blocks]
    exact hperm
  · intro a ha
    rw [chain_blocks] at ha
    simp only [List.mem_append] at ha
    exact hnext a (by grind) (by grind) (by grind)
  · intro a ha
    rw [chain_blocks] at ha
    simp only [List.mem_append] at ha
    exact hprev a (by grind) (by grind) (by grind)

theorem from_append (list : KernelList) (hx₀ : X.head? = some x₀) (bs : List Addr) :
    list.from (X ++ bs) = x₀ := by
  cases X with
  | nil => cases hx₀
  | cons x X => exact Option.some.inj hx₀

theorem upTo_append (list : KernelList) (as : List Addr) (hx₁ : X.getLast? = some x₁) :
    list.upTo (as ++ X) = x₁ := by
  rw [KernelList.upTo, List.getLastD_eq_getLast?, List.getLast?_append, hx₁]
  rfl

/-- The links at the ends of the blocks. -/
theorem Holds.links (hold : Holds h list (as ++ (X ++ (Y ++ bs)))) (hx₀ : X.head? = some x₀)
    (hx₁ : X.getLast? = some x₁) (hy₀ : Y.head? = some y₀) (hy₁ : Y.getLast? = some y₁) :
    Link h.next h.prev (list.upTo as) x₀ ∧ Link h.next h.prev x₁ y₀ ∧
      Link h.next h.prev y₁ (list.from bs) := by
  have hold₁ : Holds h list ((as ++ X) ++ (Y ++ bs)) := by rwa [List.append_assoc]
  have hold₂ : Holds h list ((as ++ (X ++ Y)) ++ bs) := by simpa [List.append_assoc] using hold
  have hlink := hold.link
  have hlink₁ := hold₁.link
  have hlink₂ := hold₂.link
  rw [from_append list hx₀] at hlink
  rw [upTo_append list as hx₁, from_append list hy₀] at hlink₁
  rw [← List.append_assoc, upTo_append list _ hy₁] at hlink₂
  exact ⟨hlink, hlink₁, hlink₂⟩

/-- **Splicing** the elements `Y` of the list to a place before them. -/
theorem listSplice_back (hold : Holds h list (as ++ (X ++ (Y ++ bs)))) (hX : X ≠ [])
    (hY : Y ≠ []) :
    ∃ h', listSplice h (list.from (X ++ (Y ++ bs))) (list.from (Y ++ bs)) (list.from bs) =
        some h' ∧ Holds h' list (as ++ (Y ++ (X ++ bs))) ∧
      Within (list.chain (as ++ (X ++ (Y ++ bs)))) h h' := by
  have hx₀ := List.head?_eq_some_head hX
  have hx₁ := List.getLast?_eq_some_getLast hX
  have hy₀ := List.head?_eq_some_head hY
  have hy₁ := List.getLast?_eq_some_getLast hY
  generalize X.head hX = x₀, X.getLast hX = x₁, Y.head hY = y₀, Y.getLast hY = y₁ at hx₀ hx₁ hy₀ hy₁
  obtain ⟨hpx, hxy, hyq⟩ := hold.links hx₀ hx₁ hy₀ hy₁
  have hpmem := upTo_mem list as
  have hqmem := from_mem list bs
  have hmemX := And.intro (List.mem_of_head? hx₀) (List.mem_of_getLast? hx₁)
  have hmemY := And.intro (List.mem_of_head? hy₀) (List.mem_of_getLast? hy₁)
  have hnodup := hold.nodup
  rw [chain_blocks] at hnodup
  simp only [List.nodup_append, List.mem_append] at hnodup
  obtain ⟨-, ⟨-, ⟨-, -, hYB⟩, hXYB⟩, hAXYB⟩ := hnodup
  have hxq : x₀ ≠ list.from bs := by grind
  have hyx : y₀ ≠ x₀ := by grind
  have hyq' : y₀ ≠ list.from bs := by grind
  have hyx' : y₁ ≠ x₁ := by grind
  have hyp : y₁ ≠ list.upTo as := by grind
  have hxp : x₁ ≠ list.upTo as := by grind
  rw [from_append list hx₀, from_append list hy₀]
  have hbefore : Function.update h.prev (list.from bs) (some x₁) x₀ = some (list.upTo as) := by
    rw [Function.update_of_ne hxq, hpx.2]
  obtain ⟨h', hsplice, hw⟩ := listSplice_writes hxy.2 hyq.1 hyq.2
    (hold.interior (by simp [hmemY.1])).1 (hold.interior (by simp [hmemY.2])).2
    (isSome_of_next hxy.1) hbefore (isSome_of_next hpx.1) (by rw [hpx.2]; rfl) hyq' hyx' hyx
  refine ⟨h', hsplice, hold.swapped hx₀ hx₁ hy₀ hy₁ ⟨?_, ?_⟩ ⟨?_, ?_⟩ ⟨?_, ?_⟩ ?_ ?_ hw.isSome⟩
  · rw [hw.next, Function.update_self]
  · rw [hw.prev, Function.update_of_ne hyx, Function.update_self]
  · rw [hw.next, Function.update_of_ne hyp, Function.update_self]
  · rw [hw.prev, Function.update_self]
  · rw [hw.next, Function.update_of_ne hxp, Function.update_of_ne hyx'.symm, Function.update_self]
  · rw [hw.prev, Function.update_of_ne hxq.symm, Function.update_of_ne hyq'.symm,
      Function.update_self]
  · intro a hap hax hay
    rw [hw.next, Function.update_of_ne hap, Function.update_of_ne hay, Function.update_of_ne hax]
  · intro b hbq hbx hby
    rw [hw.prev, Function.update_of_ne hbx, Function.update_of_ne hby, Function.update_of_ne hbq]

/-- **Splicing** the elements `X` of the list to a place after them. -/
theorem listSplice_forth (hold : Holds h list (as ++ (X ++ (Y ++ bs)))) (hX : X ≠ [])
    (hY : Y ≠ []) :
    ∃ h', listSplice h (list.from bs) (list.from (X ++ (Y ++ bs))) (list.from (Y ++ bs)) =
        some h' ∧ Holds h' list (as ++ (Y ++ (X ++ bs))) ∧
      Within (list.chain (as ++ (X ++ (Y ++ bs)))) h h' := by
  have hx₀ := List.head?_eq_some_head hX
  have hx₁ := List.getLast?_eq_some_getLast hX
  have hy₀ := List.head?_eq_some_head hY
  have hy₁ := List.getLast?_eq_some_getLast hY
  generalize X.head hX = x₀, X.getLast hX = x₁, Y.head hY = y₀, Y.getLast hY = y₁ at hx₀ hx₁ hy₀ hy₁
  obtain ⟨hpx, hxy, hyq⟩ := hold.links hx₀ hx₁ hy₀ hy₁
  have hpmem := upTo_mem list as
  have hqmem := from_mem list bs
  have hmemX := And.intro (List.mem_of_head? hx₀) (List.mem_of_getLast? hx₁)
  have hmemY := And.intro (List.mem_of_head? hy₀) (List.mem_of_getLast? hy₁)
  have hnodup := hold.nodup
  rw [chain_blocks] at hnodup
  simp only [List.nodup_append, List.mem_append] at hnodup
  obtain ⟨-, ⟨-, ⟨-, -, hYB⟩, hXYB⟩, hAXYB⟩ := hnodup
  have hxq : x₀ ≠ list.from bs := by grind
  have hyx : x₀ ≠ y₀ := by grind
  have hyq' : y₀ ≠ list.from bs := by grind
  have hyx' : x₁ ≠ y₁ := by grind
  have hyp : y₁ ≠ list.upTo as := by grind
  have hxp : x₁ ≠ list.upTo as := by grind
  rw [from_append list hx₀, from_append list hy₀]
  have hbefore : Function.update h.prev y₀ (some (list.upTo as)) (list.from bs) = some y₁ := by
    rw [Function.update_of_ne hyq'.symm, hyq.2]
  obtain ⟨h', hsplice, hw⟩ := listSplice_writes hpx.2 hxy.1 hxy.2
    (hold.interior (by simp [hmemX.1])).1 (hold.interior (by simp [hmemX.2])).2
    (isSome_of_next hpx.1) hbefore (isSome_of_next hyq.1) (by rw [hyq.2]; rfl) hyx hxp hxq
  refine ⟨h', hsplice, hold.swapped hx₀ hx₁ hy₀ hy₁ ⟨?_, ?_⟩ ⟨?_, ?_⟩ ⟨?_, ?_⟩ ?_ ?_ hw.isSome⟩
  · rw [hw.next, Function.update_of_ne hyp.symm, Function.update_of_ne hxp.symm,
      Function.update_self]
  · rw [hw.prev, Function.update_of_ne hyq', Function.update_of_ne hyx.symm, Function.update_self]
  · rw [hw.next, Function.update_self]
  · rw [hw.prev, Function.update_of_ne hxq, Function.update_self]
  · rw [hw.next, Function.update_of_ne hyx', Function.update_self]
  · rw [hw.prev, Function.update_self]
  · intro a hap hax hay
    rw [hw.next, Function.update_of_ne hay, Function.update_of_ne hax, Function.update_of_ne hap]
  · intro b hbq hbx hby
    rw [hw.prev, Function.update_of_ne hbq, Function.update_of_ne hbx, Function.update_of_ne hby]

/-- **Splicing** elements to where they are. -/
theorem listSplice_stay (hold : Holds h list (as ++ (X ++ bs))) (hX : X ≠ []) :
    ∃ h', listSplice h (list.from bs) (list.from (X ++ bs)) (list.from bs) = some h' ∧
      Holds h' list (as ++ (X ++ bs)) ∧ Within (list.chain (as ++ (X ++ bs))) h h' := by
  have hx₀ := List.head?_eq_some_head hX
  have hx₁ := List.getLast?_eq_some_getLast hX
  generalize X.head hX = x₀, X.getLast hX = x₁ at hx₀ hx₁
  have hpx : Link h.next h.prev (list.upTo as) x₀ := from_append list hx₀ bs ▸ hold.link
  have hxq : Link h.next h.prev x₁ (list.from bs) := by
    have hassoc : Holds h list ((as ++ X) ++ bs) := by rwa [List.append_assoc]
    exact upTo_append list as hx₁ ▸ hassoc.link
  have hmemX := And.intro (List.mem_of_head? hx₀) (List.mem_of_getLast? hx₁)
  have hpmem := upTo_mem list as
  have hqmem := from_mem list bs
  have hnodup := hold.nodup
  rw [chain_append, List.append_assoc] at hnodup
  simp only [List.nodup_append, List.mem_append] at hnodup
  obtain ⟨-, ⟨-, -, hXB⟩, hAXB⟩ := hnodup
  have hxq' : x₀ ≠ list.from bs := by grind
  have hxp : x₁ ≠ list.upTo as := by grind
  rw [from_append list hx₀]
  obtain ⟨h', hsplice, hw⟩ := listSplice_writes hpx.2 hxq.1 hxq.2
    (hold.interior (by simp [hmemX.1])).1 (hold.interior (by simp [hmemX.2])).2
    (isSome_of_next hpx.1) (Function.update_self ..) (isSome_of_next hpx.1) (by rw [hxq.2]; rfl)
    hxq' hxp hxq'
  -- every link that is written is what it was before
  have hnext : h'.next = h.next := by
    rw [hw.next]
    funext a
    grind [Function.update_apply, hpx.1, hxq.1]
  have hprev : h'.prev = h.prev := by
    rw [hw.prev]
    funext a
    grind [Function.update_apply, hpx.2, hxq.2]
  have hwithin : Within [] h h' :=
    ⟨fun a _ => congrFun hnext a, fun a _ => congrFun hprev a, hw.isSome⟩
  exact ⟨h', hsplice, hold.within hwithin fun a _ => List.not_mem_nil, hwithin.mono nofun⟩

/-- **Splicing** elements to a place in another list. -/
theorem listSplice_other {other : KernelList} {M cs ds : List Addr}
    (hold : Holds h list (as ++ (M ++ bs))) (hold' : Holds h other (cs ++ ds))
    (hdisjoint : ∀ a ∈ list.chain (as ++ (M ++ bs)), a ∉ other.chain (cs ++ ds)) (hM : M ≠ []) :
    ∃ h', listSplice h (other.from ds) (list.from (M ++ bs)) (list.from bs) = some h' ∧
      Holds h' list (as ++ bs) ∧ Holds h' other (cs ++ (M ++ ds)) ∧
      Within (list.chain (as ++ (M ++ bs)) ++ other.chain (cs ++ ds)) h h' := by
  have hx₀ := List.head?_eq_some_head hM
  have hx₁ := List.getLast?_eq_some_getLast hM
  generalize M.head hM = m₀, M.getLast hM = m₁ at hx₀ hx₁
  have hpm : Link h.next h.prev (list.upTo as) m₀ := from_append list hx₀ bs ▸ hold.link
  have hmq : Link h.next h.prev m₁ (list.from bs) := by
    have hassoc : Holds h list ((as ++ M) ++ bs) := by rwa [List.append_assoc]
    exact upTo_append list as hx₁ ▸ hassoc.link
  have hrs := hold'.link
  have hpmem := upTo_mem list as
  have hqmem := from_mem list bs
  have hrmem := upTo_mem other cs
  have hsmem := from_mem other ds
  have hmemM := And.intro (List.mem_of_head? hx₀) (List.mem_of_getLast? hx₁)
  have hchain : list.chain (as ++ (M ++ bs)) =
      (list.head :: as) ++ (M ++ (bs ++ [list.tail])) := by simp [KernelList.chain]
  have hchain' : other.chain (cs ++ (M ++ ds)) =
      (other.head :: cs) ++ (M ++ (ds ++ [other.tail])) := by simp [KernelList.chain]
  have hlinked := hold.linked
  have hlinked' := hold'.linked
  have hnodup := hold.nodup
  have hnodup' := hold'.nodup
  rw [hchain] at hlinked hnodup hdisjoint
  rw [chain_append] at hlinked' hnodup' hdisjoint
  have hall : ((list.head :: as) ++ (M ++ (bs ++ [list.tail])) ++
      ((other.head :: cs) ++ (ds ++ [other.tail]))).Nodup :=
    List.nodup_append.mpr ⟨hnodup, hnodup', fun a ha b hb heq => hdisjoint a ha (heq ▸ hb)⟩
  have hheads : list.head ∈ list.head :: as ∧ other.head ∈ other.head :: cs :=
    ⟨List.mem_cons_self, List.mem_cons_self⟩
  have htails : list.tail ∈ bs ++ [list.tail] ∧ other.tail ∈ ds ++ [other.tail] := by simp
  have hcut := hall
  simp only [List.nodup_append, List.mem_append] at hcut
  obtain ⟨⟨hA, ⟨hMnodup, hB, hMB⟩, hAMB⟩, ⟨hC, hD, hCD⟩, hAll⟩ := hcut
  have hmp : m₁ ≠ list.upTo as := by grind
  have hmr : m₁ ≠ other.upTo cs := by grind
  have hmq' : m₀ ≠ list.from bs := by grind
  have hms : m₀ ≠ other.from ds := by grind
  have hpr : list.upTo as ≠ other.upTo cs := by grind
  have hqs : list.from bs ≠ other.from ds := by grind
  rw [from_append list hx₀]
  have hbefore : Function.update h.prev (list.from bs) (some (list.upTo as)) (other.from ds) =
      some (other.upTo cs) := by
    rw [Function.update_of_ne hqs.symm, hrs.2]
  obtain ⟨h', hsplice, hw⟩ := listSplice_writes hpm.2 hmq.1 hmq.2
    (hold.interior (by simp [hmemM.1])).1 (hold.interior (by simp [hmemM.2])).2
    (isSome_of_next hpm.1) hbefore (isSome_of_next hrs.1) (by rw [hrs.2]; rfl) hmq' hmp hms
  have hnext : ∀ a, a ≠ list.upTo as → a ≠ other.upTo cs → a ≠ m₁ → h'.next a = h.next a :=
    fun a hap har ham => by
      rw [hw.next, Function.update_of_ne har, Function.update_of_ne ham, Function.update_of_ne hap]
  have hprev : ∀ b, b ≠ list.from bs → b ≠ other.from ds → b ≠ m₀ → h'.prev b = h.prev b :=
    fun b hbq hbs hbm => by
      rw [hw.prev, Function.update_of_ne hbs, Function.update_of_ne hbm, Function.update_of_ne hbq]
  have hpq : Link h'.next h'.prev (list.upTo as) (list.from bs) := by
    refine ⟨?_, ?_⟩
    · rw [hw.next, Function.update_of_ne hpr, Function.update_of_ne hmp.symm, Function.update_self]
    · rw [hw.prev, Function.update_of_ne hqs, Function.update_of_ne hmq'.symm,
        Function.update_self]
  have hrm : Link h'.next h'.prev (other.upTo cs) m₀ := by
    refine ⟨?_, ?_⟩
    · rw [hw.next, Function.update_self]
    · rw [hw.prev, Function.update_of_ne hms, Function.update_self]
  have hms' : Link h'.next h'.prev m₁ (other.from ds) := by
    refine ⟨?_, ?_⟩
    · rw [hw.next, Function.update_of_ne hmr, Function.update_self]
    · rw [hw.prev, Function.update_self]
  obtain ⟨hlist, hother⟩ := hlinked.move hlinked' hall (getLast?_part list as)
    (head?_rest list bs) (getLast?_part other cs) (head?_rest other ds) hx₀ hx₁ hpq hrm hms' hnext
    hprev
  refine ⟨h', hsplice, ⟨?_, ?_, ?_, ?_⟩, ⟨?_, ?_, ?_, ?_⟩, ?_, ?_, hw.isSome⟩
  · rwa [chain_append]
  · rw [hprev, hold.head] <;> grind
  · rw [hnext, hold.tail] <;> grind
  · rw [chain_append]
    obtain ⟨hA, hMB, hAMB⟩ := List.nodup_append.mp hnodup
    exact List.nodup_append.mpr ⟨hA, (List.nodup_append.mp hMB).2.1,
      fun a ha b hb => hAMB a ha b (List.mem_append_right M hb)⟩
  · rwa [hchain']
  · rw [hprev, hold'.head] <;> grind
  · rw [hnext, hold'.tail] <;> grind
  · rw [hchain']
    obtain ⟨hC, hD, hCD⟩ := List.nodup_append.mp hnodup'
    have hapart : ∀ a ∈ M, a ∉ (other.head :: cs) ++ (ds ++ [other.tail]) := fun a ha =>
      hdisjoint a (List.mem_append_right _ (List.mem_append_left _ ha))
    refine List.nodup_append.mpr ⟨hC, List.nodup_append.mpr ⟨hMnodup, hD, fun a ha b hb => ?_⟩,
      fun a ha b hb => ?_⟩
    · exact fun heq => hapart a ha (heq ▸ List.mem_append_right _ hb)
    · obtain hb | hb := List.mem_append.mp hb
      · exact fun heq => hapart b hb (heq ▸ List.mem_append_left _ ha)
      · exact hCD a ha b hb
  · intro a ha
    rw [hchain, chain_append] at ha
    simp only [List.mem_append] at ha
    exact hnext a (by grind) (by grind) (by grind)
  · intro a ha
    rw [hchain, chain_append] at ha
    simp only [List.mem_append] at ha
    exact hprev a (by grind) (by grind) (by grind)

end

end DocMachine.Pintos
