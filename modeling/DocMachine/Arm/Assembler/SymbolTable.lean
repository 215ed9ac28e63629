import Mathlib.Data.List.GetD
import DocMachine.Lib.CString

/-!
# The symbol table

Model of `assembler/symbol_table/symbol_table.c` (`symbol_table_init` 35-38, `add_entry` 50-71,
`get_address` 73-91).

* The linked list behind the dummy head is the list of its entries; `size` is its length.
* `add_entry` copies the label with `malloc (strlen (label))` and `strncpy (.., strlen (label))`
  (51-52), which leaves no zero behind the copy. A reader of the copy goes on into the memory behind
  it, up to the next zero byte. What stands there is not the table's own: it is the `Heap`, a
  parameter, and every result says for which heaps it holds. With glibc and fresh memory the byte
  behind a copy is zero unless the length of the label is 24, 40, 56 and so on, where the size field
  of the next chunk stands.
* `Entry.copy` tells the copies apart, in the order in which they are made. A call that is refused
  leaves its copy behind (57-60 do not free it), so `copies` counts all calls.
* `addEntry` appends, unless the copy in some entry starts with the new copy: the `strncmp` of the
  two compares as many characters as the *new* label has (57). `getAddress` compares whole strings,
  and exits when the table is empty or no entry has the label (`none`).

Results:
* `holds_addCalls`: the entries after any sequence of calls are those of the calls that are `Kept`,
  in order.
* `getAddress_iff`: a lookup finds the address of the earliest call that is kept and reads as the
  label.
* `finiteMap_iff`: for a sequence of labels, the table is a finite map at all addresses iff the
  copies are read back (`ReadsBack`): each scan of `add_entry` sees a repetition as one and nothing
  else, and a zero stands behind every entry's copy when it is looked up.
* `readsBack_iff`: if a zero stands behind every copy, that is to say that no label is first added
  after one that it is the start of; `not_finiteMap_start` has such a pair.
-/

namespace DocMachine.Arm.Assembler

open DocMachine.Lib

/-- What stands in memory behind the copies of the labels: `heap t k` is the text from the end of
copy `k` to the next zero byte, at call `t` of the functions below. -/
abbrev Heap := ℕ → ℕ → CString

/-- A zero stands behind every copy. -/
def Heap.zeroed : Heap := fun _ _ => []

/-- `symbol_table_entry_t` without its link: the characters that were copied, which copy it is, and
the address. -/
structure Entry where
  label : CString
  copy : ℕ
  address : ℤ

/-- The label of an entry, as a function of `string.h` reads it. -/
def Entry.text (behind : ℕ → CString) (entry : Entry) : CString := entry.label ++ behind entry.copy

/-- `symbol_table_t`, with the number of copies made for it. -/
structure SymbolTable where
  entries : List Entry
  copies : ℕ

/-- The arguments of one call of `add_entry`. -/
structure Call where
  label : CString
  address : ℤ

namespace SymbolTable

/-- `symbol_table_init`. -/
def init : SymbolTable := ⟨[], 0⟩

/-- `strncmp (s, label, strlen (label)) == 0`. -/
def startsWith (s label : CString) : Bool := s.take label.length = label

/-- `add_entry`: whether the label was added, and the table. -/
def addEntry (behind : ℕ → CString) (table : SymbolTable) (label : CString) (address : ℤ) :
    Bool × SymbolTable :=
  let labelStr := label ++ behind table.copies
  if table.entries.any fun entry => startsWith (entry.text behind) labelStr then
    (false, ⟨table.entries, table.copies + 1⟩)
  else (true, ⟨table.entries ++ [⟨label, table.copies, address⟩], table.copies + 1⟩)

/-- `get_address`. -/
def getAddress (behind : ℕ → CString) (table : SymbolTable) (label : CString) : Option ℤ :=
  (table.entries.find? fun entry => entry.text behind = label).map Entry.address

/-- The table after these calls of `add_entry`. -/
def addCalls (heap : Heap) (table : SymbolTable) (calls : List Call) : SymbolTable :=
  calls.foldl (fun table call =>
    (addEntry (heap table.copies) table call.label call.address).2) table

theorem startsWith_iff {s label : CString} : startsWith s label = true ↔ label <+: s := by
  unfold startsWith
  rw [decide_eq_true_iff, List.prefix_iff_eq_take, eq_comm]

theorem addEntry_fst {behind : ℕ → CString} {table : SymbolTable} {label : CString} {address : ℤ} :
    (addEntry behind table label address).1 = false ↔
      ∃ entry ∈ table.entries, label ++ behind table.copies <+: entry.text behind := by
  simp only [← startsWith_iff, ← List.any_eq_true]
  unfold addEntry
  by_cases hany : table.entries.any fun entry =>
    startsWith (entry.text behind) (label ++ behind table.copies) <;> simp [hany]

theorem addEntry_refused {behind : ℕ → CString} {table : SymbolTable} {label : CString}
    {address : ℤ} (h : (addEntry behind table label address).1 = false) :
    (addEntry behind table label address).2 = ⟨table.entries, table.copies + 1⟩ := by
  have hany : (table.entries.any fun entry =>
      startsWith (entry.text behind) (label ++ behind table.copies)) = true := by
    simpa only [List.any_eq_true, startsWith_iff] using addEntry_fst.mp h
  unfold addEntry
  simp only [hany, if_true]

theorem addEntry_added {behind : ℕ → CString} {table : SymbolTable} {label : CString}
    {address : ℤ} (h : (addEntry behind table label address).1 ≠ false) :
    (addEntry behind table label address).2 =
      ⟨table.entries ++ [⟨label, table.copies, address⟩], table.copies + 1⟩ := by
  have hany : ¬ (table.entries.any fun entry =>
      startsWith (entry.text behind) (label ++ behind table.copies)) = true := by
    simpa only [List.any_eq_true, startsWith_iff] using mt addEntry_fst.mpr h
  unfold addEntry
  simp only [hany, Bool.false_eq_true, if_false]

/-! ## The entries after a sequence of calls -/

/-- Copy `k` of a sequence of labels, as it is read at call `t`. -/
def readAt (heap : Heap) (labels : List CString) (t k : ℕ) : CString := labels.getD k [] ++ heap t k

/-- Call `k` adds an entry: its copy is not the start of the copy that an earlier entry has. -/
def Kept (heap : Heap) (labels : List CString) (k : ℕ) : Prop :=
  ∀ j < k, Kept heap labels j → ¬ readAt heap labels k k <+: readAt heap labels k j
termination_by k

variable {heap : Heap} {calls : List Call} {n : ℕ}

theorem addCalls_take_succ {call : Call} (hn : calls[n]? = some call) :
    addCalls heap init (calls.take (n + 1)) =
      (addEntry (heap (addCalls heap init (calls.take n)).copies)
        (addCalls heap init (calls.take n)) call.label call.address).2 := by
  unfold addCalls
  rw [List.take_add_one, hn, Option.toList_some, List.foldl_append]
  rfl

/-- What the table is like after the first `n` of the calls. -/
structure Holds (heap : Heap) (calls : List Call) (n : ℕ) (table : SymbolTable) : Prop where
  copies : table.copies = n
  mem : ∀ entry, entry ∈ table.entries ↔ entry.copy < n ∧
    calls[entry.copy]? = some ⟨entry.label, entry.address⟩ ∧
      Kept heap (calls.map Call.label) entry.copy
  sorted : table.entries.Pairwise fun e e' => e.copy < e'.copy

theorem Holds.text {table : SymbolTable} (h : Holds heap calls n table) {entry : Entry}
    (hentry : entry ∈ table.entries) (t : ℕ) :
    entry.text (heap t) = readAt heap (calls.map Call.label) t entry.copy := by
  unfold Entry.text readAt
  simp [((h.mem entry).mp hentry).2.1]

/-- The scan of `add_entry` at call `n`. -/
theorem Holds.refused_iff {table : SymbolTable} (h : Holds heap calls n table) {call : Call}
    (hn : calls[n]? = some call) :
    (addEntry (heap n) table call.label call.address).1 = false ↔
      ¬ Kept heap (calls.map Call.label) n := by
  have hnew : call.label ++ heap n table.copies = readAt heap (calls.map Call.label) n n := by
    unfold readAt
    simp [h.copies, hn]
  rw [addEntry_fst, hnew, Kept]
  push Not
  constructor
  · rintro ⟨entry, hentry, hprefix⟩
    obtain ⟨hlt, -, hkept⟩ := (h.mem entry).mp hentry
    exact ⟨entry.copy, hlt, hkept, h.text hentry n ▸ hprefix⟩
  · rintro ⟨j, hj, hkept, hprefix⟩
    obtain ⟨hlength, -⟩ := List.getElem?_eq_some_iff.mp hn
    have hcall : calls[j]? = some calls[j] := List.getElem?_eq_getElem (by omega)
    have hentry := (h.mem ⟨calls[j].label, j, calls[j].address⟩).mpr ⟨hj, hcall, hkept⟩
    exact ⟨_, hentry, (h.text hentry n).symm ▸ hprefix⟩

/-- **The table after any number of calls**: an entry for every call that is kept, in order. -/
theorem holds_addCalls (heap : Heap) (calls : List Call) (hn : n ≤ calls.length) :
    Holds heap calls n (addCalls heap init (calls.take n)) := by
  induction n with
  | zero =>
    refine ⟨rfl, fun entry => ?_, List.Pairwise.nil⟩
    simp [addCalls, init]
  | succ n ih =>
    have h := ih (by omega)
    obtain ⟨call, hcall⟩ : ∃ call, calls[n]? = some call :=
      ⟨_, List.getElem?_eq_getElem (by omega)⟩
    rw [addCalls_take_succ hcall]
    generalize addCalls heap init (calls.take n) = table at h
    have hscan := h.refused_iff hcall
    rw [h.copies]
    by_cases hkept : Kept heap (calls.map Call.label) n
    · rw [addEntry_added (mt hscan.mp (not_not.mpr hkept)), h.copies]
      refine ⟨rfl, fun entry => ?_, ?_⟩
      · rw [List.mem_append, h.mem, List.mem_singleton]
        constructor
        · rintro (⟨hlt, hrest⟩ | rfl)
          · exact ⟨by omega, hrest⟩
          · exact ⟨Nat.lt_succ_self n, hcall, hkept⟩
        · rintro ⟨hlt, hlabel, hentry⟩
          rcases Nat.lt_succ_iff_lt_or_eq.mp hlt with hlt | heq
          · exact .inl ⟨hlt, hlabel, hentry⟩
          · right
            rw [heq, hcall] at hlabel
            obtain ⟨rfl⟩ := hlabel
            obtain ⟨label, copy, address⟩ := entry
            exact congrArg (Entry.mk label · address) heq
      · refine List.pairwise_append.mpr ⟨h.sorted, List.pairwise_singleton _ _, ?_⟩
        intro e he e' he'
        obtain rfl := List.mem_singleton.mp he'
        exact ((h.mem e).mp he).1
    · rw [addEntry_refused (hscan.mpr hkept)]
      refine ⟨by rw [h.copies], fun entry => ?_, h.sorted⟩
      rw [h.mem]
      constructor
      · exact fun ⟨hlt, hrest⟩ => ⟨by omega, hrest⟩
      · rintro ⟨hlt, hlabel, hentry⟩
        have hne : entry.copy ≠ n := fun heq => hkept (heq ▸ hentry)
        exact ⟨by omega, hlabel, hentry⟩

/-- The earliest call that is kept and whose copy reads as `label` at call `t`. -/
structure Found (heap : Heap) (labels : List CString) (t : ℕ) (label : CString) (k : ℕ) : Prop where
  lt : k < labels.length
  kept : Kept heap labels k
  reads : readAt heap labels t k = label
  first : ∀ j < k, Kept heap labels j → readAt heap labels t j ≠ label

/-- A search of the entries finds the earliest that reads as `label`. -/
theorem Holds.find_iff {table : SymbolTable} (h : Holds heap calls calls.length table) (t : ℕ)
    (label : CString) (entry : Entry) :
    table.entries.find? (fun entry => entry.text (heap t) = label) = some entry ↔
      entry ∈ table.entries ∧ Found heap (calls.map Call.label) t label entry.copy := by
  rw [List.find?_eq_some_iff_append]
  constructor
  · rintro ⟨hreads, before, after, hsplit, hbefore⟩
    have hreads := of_decide_eq_true hreads
    have hentry : entry ∈ table.entries := by simp [hsplit]
    obtain ⟨hlt, -, hkept⟩ := (h.mem entry).mp hentry
    refine ⟨hentry, by simpa using hlt, hkept, (h.text hentry t).symm.trans hreads, ?_⟩
    intro j hj hkept' hreads'
    -- the entry of call `j` is before this one, and the search would have stopped there
    have hcall : calls[j]? = some calls[j] := List.getElem?_eq_getElem (by omega)
    have hentry' := (h.mem ⟨calls[j].label, j, calls[j].address⟩).mpr
      ⟨show j < calls.length by omega, hcall, hkept'⟩
    have htext := (h.text hentry' t).trans hreads'
    have hsorted := h.sorted
    rw [hsplit] at hentry' hsorted
    obtain ⟨-, hrest, -⟩ := List.pairwise_append.mp hsorted
    rcases List.mem_append.mp hentry' with hmem | hmem
    · simpa [htext] using hbefore _ hmem
    · rcases List.mem_cons.mp hmem with heq | hmem
      · exact absurd (congrArg Entry.copy heq) (Nat.ne_of_lt hj)
      · have hlater := (List.pairwise_cons.mp hrest).1 _ hmem
        exact absurd hlater (by simpa using Nat.le_of_lt hj)
  · rintro ⟨hentry, hfound⟩
    have htext := (h.text hentry t).trans hfound.reads
    obtain ⟨before, after, hsplit⟩ := List.append_of_mem hentry
    refine ⟨decide_eq_true htext, before, after, hsplit, fun e he => ?_⟩
    have hmem : e ∈ table.entries := by
      rw [hsplit]
      exact List.mem_append_left _ he
    have hsorted := h.sorted
    rw [hsplit] at hsorted
    have hlt := (List.pairwise_append.mp hsorted).2.2 e he entry List.mem_cons_self
    have hne := hfound.first e.copy hlt ((h.mem e).mp hmem).2.2
    rw [← h.text hmem t] at hne
    simpa using hne

/-- **What a lookup finds**: the address of the earliest call that is kept and reads as `label`. -/
theorem getAddress_iff {t : ℕ} {label : CString} {address : ℤ} :
    getAddress (heap t) (addCalls heap init calls) label = some address ↔
      ∃ k call, calls[k]? = some call ∧ call.address = address ∧
        Found heap (calls.map Call.label) t label k := by
  have h := holds_addCalls heap calls (Nat.le_refl calls.length)
  rw [List.take_length] at h
  unfold getAddress
  rw [Option.map_eq_some_iff]
  constructor
  · rintro ⟨entry, hfind, rfl⟩
    obtain ⟨hentry, hfound⟩ := (h.find_iff t label entry).mp hfind
    exact ⟨entry.copy, _, ((h.mem entry).mp hentry).2.1, rfl, hfound⟩
  · rintro ⟨k, call, hcall, rfl, hfound⟩
    have hlt := (List.getElem?_eq_some_iff.mp hcall).1
    have hentry := (h.mem ⟨call.label, k, call.address⟩).mpr ⟨hlt, hcall, hfound.kept⟩
    exact ⟨_, (h.find_iff t label _).mpr ⟨hentry, hfound⟩, rfl⟩

theorem Found.unique {labels : List CString} {t : ℕ} {label : CString} {k k' : ℕ}
    (h : Found heap labels t label k) (h' : Found heap labels t label k') : k = k' := by
  rcases Nat.lt_trichotomy k k' with hlt | heq | hlt
  · exact absurd h.reads (h'.first k hlt h.kept)
  · exact heq
  · exact absurd h'.reads (h.first k' hlt h'.kept)

/-- If a zero stands behind every copy, a call is kept iff its label is the start of no earlier
one. -/
theorem kept_zeroed_iff {labels : List CString} {k : ℕ} :
    Kept Heap.zeroed labels k ↔ ∀ j < k, ¬ labels.getD k [] <+: labels.getD j [] := by
  have hreads : ∀ t k, readAt Heap.zeroed labels t k = labels.getD k [] :=
    fun t k => List.append_nil _
  induction k using Nat.strong_induction_on with
  | _ k ih =>
    rw [Kept]
    simp only [hreads]
    refine ⟨fun h j hj hprefix => ?_, fun h j hj _ => h j hj⟩
    -- a call that is not kept is the start of an earlier one, and so is this one
    have hnot : ¬ Kept Heap.zeroed labels j := fun hkept => h j hj hkept hprefix
    rw [Kept] at hnot
    push Not at hnot
    obtain ⟨i, hi, hkept, hprefix'⟩ := hnot
    rw [hreads, hreads] at hprefix'
    exact h i (by omega) hkept (List.IsPrefix.trans hprefix hprefix')

/-! ## The table as a finite map -/

/-- What a sequence of calls should do: a call is refused iff its label was added before, and then
the entries stay; from then on every label has the address that was first given to it. -/
structure FiniteMap (heap : Heap) (calls : List Call) : Prop where
  refused : ∀ k call, calls[k]? = some call →
    ((addEntry (heap k) (addCalls heap init (calls.take k)) call.label call.address).1 = false ↔
      ∃ earlier ∈ calls.take k, earlier.label = call.label)
  unchanged : ∀ k call, calls[k]? = some call →
    (addEntry (heap k) (addCalls heap init (calls.take k)) call.label call.address).1 = false →
      (addEntry (heap k) (addCalls heap init (calls.take k)) call.label call.address).2.entries =
        (addCalls heap init (calls.take k)).entries
  found : ∀ t ≥ calls.length, ∀ label ∈ calls.map Call.label,
    getAddress (heap t) (addCalls heap init calls) label =
      (calls.find? fun call => call.label = label).map Call.address

/-- The label was not in the sequence before call `k`. -/
def New (labels : List CString) (k : ℕ) : Prop := labels.getD k [] ∉ labels.take k

/-- **The copies are read back.** A repeated label, and no other, is the start of the copy of an
earlier new label as the two are read at that call; and a zero stands behind the copy of every new
label from the end of the sequence on. -/
structure ReadsBack (heap : Heap) (labels : List CString) : Prop where
  scanned : ∀ k < labels.length,
    ((∃ j < k, New labels j ∧ readAt heap labels k k <+: readAt heap labels k j) ↔
      ¬ New labels k)
  stored : ∀ k < labels.length, New labels k → ∀ t ≥ labels.length, heap t k = []

variable {labels : List CString}

/-- If the copies are read back, the calls that are kept are those with a new label. -/
theorem ReadsBack.kept_iff (h : ReadsBack heap labels) {k : ℕ} (hk : k < labels.length) :
    Kept heap labels k ↔ New labels k := by
  induction k using Nat.strong_induction_on with
  | _ k ih =>
    rw [Kept, ← not_iff_not, ← h.scanned k hk]
    push Not
    constructor
    · rintro ⟨j, hj, hkept, hprefix⟩
      exact ⟨j, hj, (ih j hj (by omega)).mp hkept, hprefix⟩
    · rintro ⟨j, hj, hnew, hprefix⟩
      exact ⟨j, hj, (ih j hj (by omega)).mpr hnew, hprefix⟩

/-- A call is refused iff it is not kept. -/
theorem refused_iff {k : ℕ} {call : Call} (hk : calls[k]? = some call) :
    (addEntry (heap k) (addCalls heap init (calls.take k)) call.label call.address).1 = false ↔
      ¬ Kept heap (calls.map Call.label) k := by
  have hlt := (List.getElem?_eq_some_iff.mp hk).1
  exact (holds_addCalls heap calls (Nat.le_of_lt hlt)).refused_iff hk

theorem not_new_iff {k : ℕ} {call : Call} (hk : calls[k]? = some call) :
    ¬ New (calls.map Call.label) k ↔ ∃ earlier ∈ calls.take k, earlier.label = call.label := by
  unfold New
  rw [not_not, ← List.map_take, List.mem_map]
  simp [hk]

/-- The first call with a label is the one whose label is new. -/
theorem find_label_iff {label : CString} {call : Call} :
    calls.find? (fun call => call.label = label) = some call ↔
      ∃ k, calls[k]? = some call ∧ call.label = label ∧ New (calls.map Call.label) k := by
  rw [List.find?_eq_some_iff_getElem]
  constructor
  · rintro ⟨hlabel, k, hk, rfl, hbefore⟩
    have hcall : calls[k]? = some calls[k] := List.getElem?_eq_getElem hk
    refine ⟨k, hcall, of_decide_eq_true hlabel, not_not.mp fun hnot => ?_⟩
    obtain ⟨earlier, hearlier, heq⟩ := (not_new_iff hcall).mp hnot
    obtain ⟨j, hj, rfl⟩ := List.mem_take_iff_getElem.mp hearlier
    have hne := hbefore j (by omega)
    rw [heq, of_decide_eq_true hlabel] at hne
    simp at hne
  · rintro ⟨k, hcall, rfl, hnew⟩
    obtain ⟨hk, rfl⟩ := List.getElem?_eq_some_iff.mp hcall
    refine ⟨decide_eq_true rfl, k, hk, rfl, fun j hj => ?_⟩
    have hne : calls[j].label ≠ calls[k].label := fun heq =>
      (not_new_iff hcall).mpr ⟨calls[j], List.mem_take_iff_getElem.mpr ⟨j, by omega, rfl⟩, heq⟩ hnew
    simpa using hne

/-- A table whose calls are kept as they should be, and found. -/
theorem ReadsBack.finiteMap (h : ReadsBack heap (calls.map Call.label)) : FiniteMap heap calls where
  refused k call hk := by
    have hlt : k < (calls.map Call.label).length := by
      simpa using (List.getElem?_eq_some_iff.mp hk).1
    rw [refused_iff hk, h.kept_iff hlt, not_new_iff hk]
  unchanged k call _ hrefused := by rw [addEntry_refused hrefused]
  found t ht label hlabel := by
    obtain ⟨call, hmem, hcall⟩ := List.mem_map.mp hlabel
    have hsome : (calls.find? fun call => call.label = label).isSome :=
      List.find?_isSome.mpr ⟨call, hmem, decide_eq_true hcall⟩
    obtain ⟨call', hfind⟩ := Option.isSome_iff_exists.mp hsome
    obtain ⟨k, hk, rfl, hnew⟩ := find_label_iff.mp hfind
    rw [hfind, Option.map_some, getAddress_iff]
    refine ⟨k, call', hk, rfl, ?_⟩
    have hlength : calls.length = (calls.map Call.label).length := (List.length_map ..).symm
    have hlt : k < (calls.map Call.label).length :=
      hlength ▸ (List.getElem?_eq_some_iff.mp hk).1
    -- behind the copies of new labels stands a zero, so they read as the labels
    have hreads : ∀ j ≤ k, New (calls.map Call.label) j →
        readAt heap (calls.map Call.label) t j = (calls.map Call.label).getD j [] := by
      intro j hj hnew'
      unfold readAt
      rw [h.stored j (by omega) hnew' t (by omega), List.append_nil]
    refine ⟨hlt, (h.kept_iff hlt).mpr hnew, ?_, fun j hj hkept heq => ?_⟩
    · rw [hreads k (Nat.le_refl k) hnew]
      simp [hk]
    · have hnew' := (h.kept_iff (by omega)).mp hkept
      rw [hreads j (Nat.le_of_lt hj) hnew'] at heq
      refine hnew (List.mem_take_iff_getElem.mpr ⟨j, by omega, ?_⟩)
      rw [List.getD_eq_getElem _ _ (by omega)] at heq
      rw [heq]
      simp [hk]

/-- **The table is a finite map**, whatever the addresses are, iff the copies are read back. -/
theorem finiteMap_iff (heap : Heap) (labels : List CString) :
    (∀ calls : List Call, calls.map Call.label = labels → FiniteMap heap calls) ↔
      ReadsBack heap labels := by
  refine ⟨fun h => ?_, fun h calls hcalls => (hcalls ▸ h).finiteMap⟩
  -- give every call an address of its own
  have hlabels : (labels.mapIdx fun k label => Call.mk label k).map Call.label = labels :=
    List.ext_getElem (by simp) (by simp)
  have hmap := h _ hlabels
  have hget : ∀ k (hk : k < labels.length),
      (labels.mapIdx fun k label => Call.mk label k)[k]? = some ⟨labels[k], k⟩ := by
    intro k hk
    simp [hk]
  have hkept : ∀ k < labels.length, (Kept heap labels k ↔ New labels k) := by
    intro k hk
    have hrefused := hmap.refused k _ (hget k hk)
    rw [refused_iff (hget k hk), ← not_new_iff (hget k hk), hlabels] at hrefused
    exact not_iff_not.mp hrefused
  constructor
  · intro k hk
    rw [← hkept k hk, Kept]
    push Not
    constructor
    · rintro ⟨j, hj, hnew, hprefix⟩
      exact ⟨j, hj, (hkept j (by omega)).mpr hnew, hprefix⟩
    · rintro ⟨j, hj, hkept', hprefix⟩
      exact ⟨j, hj, (hkept j (by omega)).mp hkept', hprefix⟩
  · intro k hk hnew t ht
    have hfound := hmap.found t (by simpa using ht) labels[k] (by simp [hlabels])
    have hfind := find_label_iff.mpr ⟨k, hget k hk, rfl, hlabels.symm ▸ hnew⟩
    rw [hfind, Option.map_some, getAddress_iff, hlabels] at hfound
    obtain ⟨k', call, hcall, haddress, hfound⟩ := hfound
    -- the address is that of call `k`, so the entry is
    rw [hget k' hfound.lt] at hcall
    obtain rfl := Option.some.inj hcall
    obtain rfl : k' = k := Int.ofNat_inj.mp haddress
    have hreads := hfound.reads
    unfold readAt at hreads
    rw [List.getD_eq_getElem _ _ hk] at hreads
    simpa using hreads

/-- Every label of a sequence was new once. -/
theorem exists_new {i : ℕ} (hi : i < labels.length) :
    ∃ j ≤ i, New labels j ∧ labels.getD j [] = labels.getD i [] := by
  induction i using Nat.strong_induction_on with
  | _ i ih =>
    by_cases hnew : New labels i
    · exact ⟨i, Nat.le_refl i, hnew, rfl⟩
    · obtain ⟨i', hi', heq⟩ := List.mem_take_iff_getElem.mp (not_not.mp hnew)
      obtain ⟨j, hj, hnew', hlabel⟩ := ih i' (by omega) (by omega)
      refine ⟨j, by omega, hnew', hlabel.trans ?_⟩
      rw [← heq, List.getD_eq_getElem _ _ (by omega)]

/-- If a zero stands behind every copy, the copies are read back iff every label that is the start
of an earlier one was itself added before. -/
theorem readsBack_iff : ReadsBack Heap.zeroed labels ↔ ∀ k < labels.length,
    (∃ label ∈ labels.take k, labels.getD k [] <+: label) → ¬ New labels k := by
  have hreads : ∀ t k, readAt Heap.zeroed labels t k = labels.getD k [] :=
    fun t k => List.append_nil _
  constructor
  · rintro h k hk ⟨label, hlabel, hprefix⟩
    obtain ⟨i, hi, rfl⟩ := List.mem_take_iff_getElem.mp hlabel
    obtain ⟨j, hj, hnew, heq⟩ := exists_new (show i < labels.length by omega)
    refine (h.scanned k hk).mp ⟨j, by omega, hnew, ?_⟩
    rw [hreads, hreads, heq, List.getD_eq_getElem (n := i) _ _ (by omega)]
    exact hprefix
  · intro h
    refine ⟨fun k hk => ⟨?_, fun hrepeated => ?_⟩, fun k _ _ t _ => rfl⟩
    · rintro ⟨j, hj, -, hprefix⟩
      rw [hreads, hreads] at hprefix
      rw [List.getD_eq_getElem (n := j) _ _ (by omega)] at hprefix
      exact h k hk ⟨_, List.mem_take_iff_getElem.mpr ⟨j, by omega, rfl⟩, hprefix⟩
    · obtain ⟨i, hi, heq⟩ := List.mem_take_iff_getElem.mp (not_not.mp hrepeated)
      obtain ⟨j, hj, hnew, heq'⟩ := exists_new (show i < labels.length by omega)
      have hsame : labels.getD j [] = labels.getD k [] := by
        rw [heq', ← heq, List.getD_eq_getElem (n := i) _ _ (by omega)]
      refine ⟨j, by omega, hnew, ?_⟩
      rw [hreads, hreads]
      exact ⟨[], (List.append_nil _).trans hsame.symm⟩

/-- The labels `ab` and `a`: the second is refused. -/
theorem not_finiteMap_start : ¬ FiniteMap Heap.zeroed [⟨['a', 'b'], 0⟩, ⟨['a'], 4⟩] := by
  intro h
  have hrefused := (h.refused 1 ⟨['a'], 4⟩ rfl).mp (by decide)
  simp at hrefused

end SymbolTable

end DocMachine.Arm.Assembler
