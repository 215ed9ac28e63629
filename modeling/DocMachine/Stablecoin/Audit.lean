import DocMachine.Lib.Paging
import DocMachine.Stablecoin.Issue

/-!
# The audit in pages

Model of `get_audit_transactions` (`backend/database_api.py` 226-256), whose `offset` and `limit`
are there for reading the audit page by page (`auditTransactions` of `main.py`, 160-170, asks for
the first thousand rows).

* The query date is to ensure "that offset works (if new rows are added later)" (235), but the
  `WHERE` of the query (248) belongs to its second `SELECT` only: redeems of any date are listed.
* The query leaves the order of rows of the same date open, so that the database may choose it anew
  for each page: `orderBy` is any sorting by date, another one for each page.
* The two tables may grow between two pages. Dates are of any linear order, and those of new rows
  are arbitrary.
* A page is as long as `limit` says, and the pages are read until one is empty.

Results:
* `union_eq`: no row is listed twice in one listing.
* `getAuditTransactions_eq`: a page that is not disturbed, and `late_le_of_complete`: no page of a
  complete reading begins with a later row.
* `alwaysComplete_iff`: the pages give each row up to the query date exactly once, whatever order
  the database chooses, iff no later redeem is there while rows are left to be fetched, and no two
  pages share a date.
* `complete_iff`: if the database has an order of its own for the rows of a date, the first
  condition is enough.
-/

namespace DocMachine.Stablecoin

open DocMachine.Lib DocMachine.Lib.Paging

/-! ## The query -/

/-- The columns of `redeem` and `issue` that are selected. -/
structure AuditRow (Date : Type) where
  bankTransactionId : String
  blockchainTransactionId : Option String
  amount : PyFloat
  date : Date
deriving DecidableEq

/-- The two values of the column `type`. -/
inductive AuditType where
  | redeem
  | issue
deriving DecidableEq

/-- `(type, bank_transaction_id, blockchain_transaction_id, amount, date)`. -/
abbrev AuditTransaction (Date : Type) := AuditType × AuditRow Date

/-- The two tables; `bank_transaction_id` is unique in each. -/
structure AuditTables (Date : Type) where
  redeem : List (AuditRow Date)
  issue : List (AuditRow Date)
  redeem_unique : (redeem.map AuditRow.bankTransactionId).Nodup
  issue_unique : (issue.map AuditRow.bankTransactionId).Nodup

section

variable {Date : Type} [LinearOrder Date]

/-- The date of a row. -/
def dateOf (transaction : AuditTransaction Date) : Date := transaction.2.date

/-- `SELECT 'redeem' ... FROM redeem UNION SELECT 'issue' ... FROM issue WHERE ...` -/
def AuditTables.union (tables : AuditTables Date) (queryDate : Date) :
    List (AuditTransaction Date) :=
  (tables.redeem.map (AuditType.redeem, ·) ++
    (tables.issue.filter (·.date ≤ queryDate)).map (AuditType.issue, ·)).dedup

/-- `get_audit_transactions`; `orderBy` is what `ORDER BY date DESC` does. -/
def getAuditTransactions
    (orderBy : List (AuditTransaction Date) → List (AuditTransaction Date)) (offset limit : ℕ)
    (queryDate : Date) (tables : AuditTables Date) : List (AuditTransaction Date) :=
  ((orderBy (tables.union queryDate)).drop offset).take limit

/-- Newest first, and the rows of the same date in any order. -/
def OrdersByDate (orderBy : List (AuditTransaction Date) → List (AuditTransaction Date)) : Prop :=
  ∀ rows, (orderBy rows).Perm rows ∧ Descending dateOf (orderBy rows)

/-- The first `n` pages, each from the tables as they are when it is fetched. -/
def pages (orderBy : ℕ → List (AuditTransaction Date) → List (AuditTransaction Date)) (limit : ℕ)
    (queryDate : Date) (tables : ℕ → AuditTables Date) (n : ℕ) : List (AuditTransaction Date) :=
  (List.range n).flatMap fun k =>
    getAuditTransactions (orderBy k) (k * limit) limit queryDate (tables k)

/-! ## What the pages should give -/

/-- The rows up to the query date. -/
def AuditTables.upTo (tables : AuditTables Date) (queryDate : Date) :
    List (AuditTransaction Date) :=
  (tables.redeem.map (AuditType.redeem, ·) ++ tables.issue.map (AuditType.issue, ·)).filter
    (dateOf · ≤ queryDate)

/-- Between two pages later rows are inserted. -/
def Grows (queryDate : Date) (tables : ℕ → AuditTables Date) : Prop :=
  ∀ k, ∃ redeem issue, (tables (k + 1)).redeem = (tables k).redeem ++ redeem ∧
    (tables (k + 1)).issue = (tables k).issue ++ issue ∧
      ∀ row ∈ redeem ++ issue, queryDate < row.date

/-- Each row once, newest first. -/
def Complete (rows result : List (AuditTransaction Date)) : Prop :=
  result.Perm rows ∧ Descending dateOf result

/-- However the database orders the rows of the same date. -/
def AlwaysComplete (limit : ℕ) (queryDate : Date) (tables : ℕ → AuditTables Date) (n : ℕ) : Prop :=
  ∀ orderBy, (∀ k, OrdersByDate (orderBy k)) →
    Complete ((tables 0).upTo queryDate) (pages orderBy limit queryDate tables n)

/-- Redeems after the query date. -/
def AuditTables.late (tables : AuditTables Date) (queryDate : Date) : ℕ :=
  tables.redeem.countP (queryDate < ·.date)

/-- No later redeem is there while rows are left to be fetched. -/
def Undisturbed (limit : ℕ) (queryDate : Date) (tables : ℕ → AuditTables Date) (n : ℕ) : Prop :=
  ∀ k < n, (tables k).late queryDate = 0 ∨
    ((tables 0).upTo queryDate).length + (tables k).late queryDate ≤ k * limit

/-- The dates of the rows, newest first. -/
def AuditTables.dates (tables : AuditTables Date) (queryDate : Date) : List Date :=
  (((tables.upTo queryDate).map dateOf).mergeSort fun a b => b ≤ a)

/-- The database has an order for the rows of a date, whatever else is listed. -/
structure FixedOrder
    (orderBy : List (AuditTransaction Date) → List (AuditTransaction Date)) : Prop where
  orders : OrdersByDate orderBy
  filter : ∀ (rows : List (AuditTransaction Date)) (p : AuditTransaction Date → Bool),
    (orderBy rows).filter p = orderBy (rows.filter p)

/-! ## The rows of the union -/

namespace AuditTables

variable {tables : AuditTables Date} {queryDate : Date}

theorem upTo_eq : tables.upTo queryDate =
    (tables.redeem.filter (·.date ≤ queryDate)).map (AuditType.redeem, ·) ++
      (tables.issue.filter (·.date ≤ queryDate)).map (AuditType.issue, ·) := by
  rw [upTo, List.filter_append, List.filter_map, List.filter_map]
  rfl

omit [LinearOrder Date] in
theorem nodup_rows {rows : List (AuditRow Date)}
    (h : (rows.map AuditRow.bankTransactionId).Nodup) (type : AuditType) :
    (rows.map (type, ·)).Nodup :=
  (List.Nodup.of_map _ h).map fun _ _ heq => (Prod.mk.inj heq).2

omit [LinearOrder Date] in
theorem disjoint_rows (redeem issue : List (AuditRow Date)) :
    (redeem.map (AuditType.redeem, ·)).Disjoint (issue.map (AuditType.issue, ·)) := by
  intro row hredeem hissue
  obtain ⟨_, -, rfl⟩ := List.mem_map.mp hredeem
  obtain ⟨_, -, heq⟩ := List.mem_map.mp hissue
  cases heq

/-- No row is listed twice. -/
theorem union_eq : tables.union queryDate = tables.redeem.map (AuditType.redeem, ·) ++
    (tables.issue.filter (·.date ≤ queryDate)).map (AuditType.issue, ·) := by
  refine List.Nodup.dedup (List.nodup_append'.mpr ⟨nodup_rows tables.redeem_unique _, ?_,
    disjoint_rows _ _⟩)
  exact nodup_rows (tables.issue_unique.sublist (List.filter_sublist.map _)) _

theorem nodup_upTo : (tables.upTo queryDate).Nodup := by
  refine List.Nodup.filter _ (List.nodup_append'.mpr ⟨nodup_rows tables.redeem_unique _,
    nodup_rows tables.issue_unique _, disjoint_rows _ _⟩)

theorem filter_union : (tables.union queryDate).filter (dateOf · ≤ queryDate) =
    tables.upTo queryDate := by
  rw [union_eq, upTo_eq, List.filter_append, List.filter_map, List.filter_map, List.filter_filter]
  congr 2
  refine List.filter_congr fun row _ => ?_
  rw [Function.comp_apply, dateOf, Bool.and_self]

theorem length_filter_union :
    ((tables.union queryDate).filter (queryDate < dateOf ·)).length = tables.late queryDate := by
  have hissue : ((tables.issue.filter (·.date ≤ queryDate)).map (AuditType.issue, ·)).filter
      (queryDate < dateOf ·) = [] := by
    rw [List.filter_eq_nil_iff]
    intro row hrow
    obtain ⟨issue, hissue, rfl⟩ := List.mem_map.mp hrow
    have hle : issue.date ≤ queryDate := by simpa using (List.mem_filter.mp hissue).2
    rw [decide_eq_true_eq, not_lt]
    exact hle
  rw [union_eq, List.filter_append, hissue, List.append_nil, List.filter_map, List.length_map,
    late, List.countP_eq_length_filter]
  rfl

end AuditTables

/-- What is inserted does not change the rows up to the query date. -/
theorem Grows.upTo {queryDate : Date} {tables : ℕ → AuditTables Date}
    (h : Grows queryDate tables) (k : ℕ) :
    (tables k).upTo queryDate = (tables 0).upTo queryDate := by
  induction k with
  | zero => rfl
  | succ k ih =>
    obtain ⟨redeem, issue, hredeem, hissue, hlater⟩ := h k
    have hnone : ∀ rows : List (AuditRow Date), rows ⊆ redeem ++ issue →
        rows.filter (·.date ≤ queryDate) = [] := by
      intro rows hrows
      rw [List.filter_eq_nil_iff]
      intro row hrow
      simpa using hlater row (hrows hrow)
    rw [← ih, AuditTables.upTo_eq, AuditTables.upTo_eq, hredeem, hissue, List.filter_append,
      List.filter_append, hnone redeem (List.subset_append_left _ _),
      hnone issue (List.subset_append_right _ _), List.append_nil, List.append_nil]

/-! ## One page -/

section

variable {orderBy : List (AuditTransaction Date) → List (AuditTransaction Date)} {limit : ℕ}
  {queryDate : Date} {tables : AuditTables Date}

/-- The listing of the rows up to the query date that a query makes. -/
def listing (orderBy : List (AuditTransaction Date) → List (AuditTransaction Date))
    (queryDate : Date) (tables : AuditTables Date) : List (AuditTransaction Date) :=
  (orderBy (tables.union queryDate)).filter (dateOf · ≤ queryDate)

theorem listing_perm (h : OrdersByDate orderBy) :
    (listing orderBy queryDate tables).Perm (tables.upTo queryDate) := by
  rw [← AuditTables.filter_union]
  exact (h _).1.filter _

theorem listing_descending (h : OrdersByDate orderBy) :
    Descending dateOf (listing orderBy queryDate tables) := (h _).2.filter _

/-- The later redeems come first. -/
theorem exists_late (h : OrdersByDate orderBy) (queryDate : Date) (tables : AuditTables Date) :
    ∃ late, orderBy (tables.union queryDate) = late ++ listing orderBy queryDate tables ∧
      late.length = tables.late queryDate ∧ ∀ row ∈ late, queryDate < dateOf row := by
  refine ⟨_, (h _).2.eq_filter_append queryDate, ?_, fun row hrow => ?_⟩
  · rw [← AuditTables.length_filter_union]
    exact ((h _).1.filter _).length_eq
  · simpa using (List.mem_filter.mp hrow).2

/-- A page that is not disturbed. -/
theorem getAuditTransactions_eq (h : OrdersByDate orderBy) {k : ℕ}
    (hlate : tables.late queryDate = 0 ∨
      (tables.upTo queryDate).length + tables.late queryDate ≤ k * limit) :
    getAuditTransactions orderBy (k * limit) limit queryDate tables =
      page limit (listing orderBy queryDate tables) k := by
  obtain ⟨late, horder, hlength, -⟩ := exists_late h queryDate tables
  change page limit (orderBy (tables.union queryDate)) k = _
  obtain hzero | hrest := hlate
  · rw [hzero, List.length_eq_zero_iff] at hlength
    rw [horder, hlength, List.nil_append]
  · have hrows : (listing orderBy queryDate tables).length = _ := (listing_perm h).length_eq
    rw [page_eq_nil, page_eq_nil]
    · omega
    · rw [horder, List.length_append]
      omega

/-- What is at a place of the listing is so many places later in the query. -/
theorem getElem?_orderBy (h : OrdersByDate orderBy) {i : ℕ}
    (hi : tables.late queryDate ≤ i) : (orderBy (tables.union queryDate))[i]? =
      (listing orderBy queryDate tables)[i - tables.late queryDate]? := by
  obtain ⟨late, horder, hlength, -⟩ := exists_late h queryDate tables
  rw [horder, List.getElem?_append_right (by omega), hlength]

end

/-! ## All pages -/

section

variable {orderBy : ℕ → List (AuditTransaction Date) → List (AuditTransaction Date)} {limit n : ℕ}
  {queryDate : Date} {tables : ℕ → AuditTables Date}

theorem Grows.listing_perm (h : Grows queryDate tables) (horder : ∀ k, OrdersByDate (orderBy k))
    (k : ℕ) : (listing (orderBy k) queryDate (tables k)).Perm ((tables 0).upTo queryDate) := by
  rw [← h.upTo k]
  exact Stablecoin.listing_perm (horder k)

theorem pages_eq (h : Grows queryDate tables) (horder : ∀ k, OrdersByDate (orderBy k))
    (hundisturbed : Undisturbed limit queryDate tables n) :
    pages orderBy limit queryDate tables n = (List.range n).flatMap fun k =>
      page limit (listing (orderBy k) queryDate (tables k)) k := by
  refine List.flatMap_congr fun k hk => getAuditTransactions_eq (horder k) ?_
  rw [h.upTo k]
  exact hundisturbed k (List.mem_range.mp hk)

/-- Undisturbed pages are in order, and complete if each is a page of one listing up to the order
of its rows. -/
theorem complete_of_page_perm (h : Grows queryDate tables)
    (horder : ∀ k, OrdersByDate (orderBy k)) (hn : ((tables 0).upTo queryDate).length ≤ n * limit)
    (hundisturbed : Undisturbed limit queryDate tables n)
    (hpage : ∀ k, (page limit (listing (orderBy k) queryDate (tables k)) k).Perm
      (page limit (listing (orderBy 0) queryDate (tables 0)) k)) :
    Complete ((tables 0).upTo queryDate) (pages orderBy limit queryDate tables n) := by
  have hall : (listing (orderBy 0) queryDate (tables 0)).take (n * limit) =
      listing (orderBy 0) queryDate (tables 0) :=
    List.take_of_length_le ((h.listing_perm horder 0).length_eq.trans_le hn)
  have hkeys : ∀ k, (listing (orderBy k) queryDate (tables k)).map dateOf =
      (listing (orderBy 0) queryDate (tables 0)).map dateOf := fun k =>
    (listing_descending (horder k)).map_eq (listing_descending (horder 0))
      ((h.listing_perm horder k).trans (h.listing_perm horder 0).symm)
  rw [pages_eq h horder hundisturbed]
  constructor
  · have hperm := List.Perm.flatMap_left (List.range n) fun k _ => hpage k
    rw [flatMap_page, hall] at hperm
    exact hperm.trans (h.listing_perm horder 0)
  · rw [descending_iff_map, List.map_flatMap]
    simp only [map_page, hkeys]
    rw [flatMap_page, ← List.map_take, hall, ← descending_iff_map]
    exact listing_descending (horder 0)

/-- What a page begins with. -/
theorem mem_pages (hlimit : 0 < limit) {k : ℕ} (hk : k < n) {x : AuditTransaction Date}
    (hx : (orderBy k ((tables k).union queryDate))[k * limit]? = some x) :
    x ∈ getAuditTransactions (orderBy k) (k * limit) limit queryDate (tables k) ∧
      x ∈ pages orderBy limit queryDate tables n := by
  have hpage : x ∈ getAuditTransactions (orderBy k) (k * limit) limit queryDate (tables k) :=
    mem_page le_rfl (by rw [Nat.succ_mul]; omega) hx
  exact ⟨hpage, List.mem_flatMap.mpr ⟨k, List.mem_range.mpr hk, hpage⟩⟩

/-- No page begins with a later row. -/
theorem late_le_of_complete (hlimit : 0 < limit) (horder : ∀ k, OrdersByDate (orderBy k))
    (hcomplete : Complete ((tables 0).upTo queryDate) (pages orderBy limit queryDate tables n))
    {k : ℕ} (hk : k < n) : (tables k).late queryDate ≤ k * limit := by
  by_contra hlt
  obtain ⟨late, heq, hlength, hlater⟩ := exists_late (horder k) queryDate (tables k)
  have hi : k * limit < late.length := by omega
  have hx : (orderBy k ((tables k).union queryDate))[k * limit]? = some late[k * limit] := by
    rw [heq, List.getElem?_append_left hi, List.getElem?_eq_getElem hi]
  have hmem := hcomplete.1.subset (mem_pages hlimit hk hx).2
  have hle := of_decide_eq_true (List.mem_filter.mp hmem).2
  exact absurd hle (not_le.mpr (hlater _ (List.getElem_mem hi)))

/-- With one listing for all pages, a page that is disturbed begins with a later row, or with one
that was on an earlier page. -/
theorem undisturbed_of_complete (hlimit : 0 < limit) (h : Grows queryDate tables)
    (horder : ∀ k, OrdersByDate (orderBy k))
    (hsame : ∀ k, listing (orderBy k) queryDate (tables k) =
      listing (orderBy 0) queryDate (tables 0))
    (hcomplete : Complete ((tables 0).upTo queryDate)
      (pages orderBy limit queryDate tables n)) :
    Undisturbed limit queryDate tables n := by
  intro k
  induction k using Nat.strong_induction_on with
  | h k ih =>
    intro hk
    by_contra hnot
    push Not at hnot
    obtain ⟨hlate, hlt⟩ := hnot
    have hle := late_le_of_complete hlimit horder hcomplete hk
    let i := k * limit - (tables k).late queryDate
    have hi : i < (listing (orderBy 0) queryDate (tables 0)).length := by
      rw [(h.listing_perm horder 0).length_eq]
      omega
    have hx := List.getElem?_eq_getElem hi
    have hagain := mem_pages (n := n) hlimit hk
      ((getElem?_orderBy (horder k) hle).trans (by rw [hsame k, hx]))
    have hearlier : i / limit < k := (Nat.div_lt_iff_lt_mul hlimit).mpr (by omega)
    have hpage : getAuditTransactions (orderBy (i / limit)) (i / limit * limit) limit queryDate
        (tables (i / limit)) = _ := getAuditTransactions_eq (horder _) (by
          rw [h.upTo]
          exact ih _ hearlier (by omega))
    have hfirst := mem_page (Nat.div_mul_le_self i limit) (Nat.lt_mul_of_div_lt
      (Nat.lt_succ_self _) hlimit) hx
    rw [hsame] at hpage
    rw [← hpage] at hfirst
    refine not_nodup_flatMap (f := fun k => getAuditTransactions (orderBy k) (k * limit) limit
      queryDate (tables k)) hearlier hk hfirst hagain.1 ?_
    exact hcomplete.1.nodup_iff.mpr AuditTables.nodup_upTo

end

/-! ## The order of the rows of a date -/

section

variable {limit n : ℕ} {queryDate : Date} {tables : ℕ → AuditTables Date}

/-- One sorting by date, the latest first. -/
def sortByDate (rows : List (AuditTransaction Date)) : List (AuditTransaction Date) :=
  rows.mergeSort fun a b => dateOf b ≤ dateOf a

theorem ordersByDate_sortByDate : OrdersByDate (@sortByDate Date _) := by
  intro rows
  have hsorted : (sortByDate rows).Pairwise fun a b => decide (dateOf b ≤ dateOf a) = true := by
    refine List.pairwise_mergeSort (fun a b c hab hbc => ?_) (fun a b => ?_) rows
    · rw [decide_eq_true_eq] at hab hbc ⊢
      exact hbc.trans hab
    · simpa using le_total (dateOf b) (dateOf a)
  exact ⟨List.mergeSort_perm _ _, hsorted.imp of_decide_eq_true⟩

/-- Any listing of the rows up to the query date may be the one that the database makes. -/
theorem exists_orderBy (queryDate : Date) {rows chosen : List (AuditTransaction Date)}
    (hperm : chosen.Perm rows) (hdescending : Descending dateOf chosen) :
    ∃ orderBy, OrdersByDate orderBy ∧ ∀ tables : AuditTables Date,
      tables.upTo queryDate = rows → listing orderBy queryDate tables = chosen := by
  classical
  let early : List (AuditTransaction Date) → List (AuditTransaction Date) :=
    List.filter (dateOf · ≤ queryDate)
  let late : List (AuditTransaction Date) → List (AuditTransaction Date) :=
    List.filter (queryDate < dateOf ·)
  let last : List (AuditTransaction Date) → List (AuditTransaction Date) := fun all =>
    if early all = rows then chosen else sortByDate (early all)
  have hlast : ∀ all, (last all).Perm (early all) ∧ Descending dateOf (last all) := by
    intro all
    by_cases heq : early all = rows
    · simp only [last, if_pos heq]
      exact ⟨heq ▸ hperm, hdescending⟩
    · simp only [last, if_neg heq]
      exact ordersByDate_sortByDate _
  have hparts : ∀ all, (late all ++ early all).Perm all := by
    intro all
    have hnot : early = List.filter fun row => !decide (queryDate < dateOf row) := by
      simp only [early, ← decide_not, not_lt]
    rw [hnot]
    exact List.filter_append_perm _ _
  have hfirst := fun all => ordersByDate_sortByDate (late all)
  refine ⟨fun all => sortByDate (late all) ++ last all, fun all => ⟨?_, ?_⟩, fun tables hrows => ?_⟩
  · exact ((hfirst all).1.append (hlast all).1).trans (hparts all)
  · refine List.pairwise_append.mpr ⟨(hfirst all).2, (hlast all).2, fun a ha b hb => ?_⟩
    have hlater := (List.mem_filter.mp ((hfirst all).1.subset ha)).2
    have hearlier := (List.mem_filter.mp ((hlast all).1.subset hb)).2
    simp only [decide_eq_true_eq] at hlater hearlier
    exact hearlier.trans hlater.le
  · have hnone : (sortByDate (late (tables.union queryDate))).filter (dateOf · ≤ queryDate) =
        [] := by
      rw [List.filter_eq_nil_iff]
      intro row hrow
      have hlater := (List.mem_filter.mp ((hfirst _).1.subset hrow)).2
      simpa using hlater
    have hall : chosen.filter (dateOf · ≤ queryDate) = chosen := by
      rw [List.filter_eq_self]
      intro row hrow
      have hmem := hperm.subset hrow
      rw [← hrows] at hmem
      exact (List.mem_filter.mp hmem).2
    have hearly : early (tables.union queryDate) = rows := by
      rw [← hrows]
      exact AuditTables.filter_union
    rw [listing, List.filter_append, hnone, List.nil_append]
    simp only [last, if_pos hearly, hall]

theorem map_dateOf_eq {tables : AuditTables Date} {rows : List (AuditTransaction Date)}
    (hperm : rows.Perm (tables.upTo queryDate)) (hdescending : Descending dateOf rows) :
    rows.map dateOf = tables.dates queryDate := by
  have hsorted : (tables.dates queryDate).Pairwise fun a b => decide (b ≤ a) = true := by
    refine List.pairwise_mergeSort (fun a b c hab hbc => ?_) (fun a b => ?_) _
    · rw [decide_eq_true_eq] at hab hbc ⊢
      exact hbc.trans hab
    · simpa using le_total b a
  refine List.Perm.eq_of_pairwise (fun _ _ _ _ hab hba => le_antisymm hba hab)
    (descending_iff_map.mp hdescending) (hsorted.imp of_decide_eq_true) ?_
  exact (hperm.map dateOf).trans (List.mergeSort_perm _ _).symm

theorem AlwaysComplete.undisturbed (hlimit : 0 < limit) (hgrows : Grows queryDate tables)
    (h : AlwaysComplete limit queryDate tables n) : Undisturbed limit queryDate tables n := by
  obtain ⟨hperm, hdescending⟩ := ordersByDate_sortByDate ((tables 0).upTo queryDate)
  obtain ⟨orderBy, horder, hlisting⟩ := exists_orderBy queryDate hperm hdescending
  have hsame : ∀ k, listing orderBy queryDate (tables k) =
      listing orderBy queryDate (tables 0) := by
    intro k
    rw [hlisting _ (hgrows.upTo k), hlisting _ rfl]
  exact undisturbed_of_complete hlimit hgrows (fun _ => horder) hsame (h _ fun _ => horder)

/-- Two rows of one date on two pages may change places. -/
theorem AlwaysComplete.separated (hlimit : 0 < limit) (hgrows : Grows queryDate tables)
    (hn : ((tables 0).upTo queryDate).length ≤ n * limit)
    (h : AlwaysComplete limit queryDate tables n) :
    Separated limit ((tables 0).dates queryDate) := by
  intro k a hk hbefore hafter
  obtain ⟨hperm, hdescending⟩ := ordersByDate_sortByDate ((tables 0).upTo queryDate)
  rw [← map_dateOf_eq hperm hdescending] at hbefore hafter
  have hlt : k * limit < ((tables 0).upTo queryDate).length := by
    obtain ⟨hlt, -⟩ := List.getElem?_eq_some_iff.mp hafter
    rwa [List.length_map, hperm.length_eq] at hlt
  have hkn : k < n := Nat.lt_of_mul_lt_mul_right (hlt.trans_le hn)
  have hj : 0 < k * limit := Nat.mul_pos hk hlimit
  obtain ⟨x, chosen, hx, hx', hswap, hdescending'⟩ := hdescending.exists_swap hj hbefore hafter
  obtain ⟨first, hfirst, hlisting⟩ := exists_orderBy queryDate hperm hdescending
  obtain ⟨second, hsecond, hlisting'⟩ :=
    exists_orderBy queryDate (hswap.trans hperm) hdescending'
  -- the pages up to `k` in one order, and the others in the other one
  let orderBy := fun i => if i < k then first else second
  have horder : ∀ i, OrdersByDate (orderBy i) := by
    intro i
    simp only [orderBy]
    split
    · exact hfirst
    · exact hsecond
  have hpage : ∀ i < n, getAuditTransactions (orderBy i) (i * limit) limit queryDate (tables i) =
      page limit (listing (orderBy i) queryDate (tables i)) i := by
    intro i hi
    refine getAuditTransactions_eq (horder i) ?_
    rw [hgrows.upTo]
    exact h.undisturbed hlimit hgrows i hi
  have hbeforeMem : x ∈ getAuditTransactions (orderBy (k - 1)) ((k - 1) * limit) limit queryDate
      (tables (k - 1)) := by
    have hsame : orderBy (k - 1) = first := if_pos (by omega)
    rw [hpage _ (by omega), hsame, hlisting _ (hgrows.upTo _)]
    obtain ⟨i, rfl⟩ := Nat.exists_eq_add_of_le' hk
    rw [Nat.add_sub_cancel]
    rw [Nat.add_mul, Nat.one_mul] at hx
    refine mem_page (by omega) ?_ hx
    rw [Nat.add_mul, Nat.one_mul]
    omega
  have hafterMem : x ∈ getAuditTransactions (orderBy k) (k * limit) limit queryDate (tables k) := by
    have hsame : orderBy k = second := if_neg (Nat.lt_irrefl k)
    rw [hpage _ hkn, hsame, hlisting' _ (hgrows.upTo _)]
    exact mem_page le_rfl (by rw [Nat.succ_mul]; omega) hx'
  refine not_nodup_flatMap (f := fun i => getAuditTransactions (orderBy i) (i * limit) limit
    queryDate (tables i)) (Nat.sub_lt hk one_pos) hkn hbeforeMem hafterMem ?_
  exact (h orderBy horder).1.nodup_iff.mpr AuditTables.nodup_upTo

/-- **The audit, if the database may order the rows of a date as it likes.** -/
theorem alwaysComplete_iff (hlimit : 0 < limit) (hgrows : Grows queryDate tables)
    (hn : ((tables 0).upTo queryDate).length ≤ n * limit) :
    AlwaysComplete limit queryDate tables n ↔
      Undisturbed limit queryDate tables n ∧ Separated limit ((tables 0).dates queryDate) := by
  constructor
  · intro h
    exact ⟨h.undisturbed hlimit hgrows, h.separated hlimit hgrows hn⟩
  · rintro ⟨hundisturbed, hseparated⟩ orderBy horder
    refine complete_of_page_perm hgrows horder hn hundisturbed fun k => ?_
    refine (listing_descending (horder k)).page_perm (listing_descending (horder 0))
      ((hgrows.listing_perm horder k).trans (hgrows.listing_perm horder 0).symm) ?_ k
    rw [map_dateOf_eq (hgrows.listing_perm horder k) (listing_descending (horder k))]
    exact hseparated

/-- **The audit, if the database has an order for the rows of a date.** -/
theorem complete_iff (hlimit : 0 < limit) (hgrows : Grows queryDate tables)
    (hn : ((tables 0).upTo queryDate).length ≤ n * limit)
    {orderBy : List (AuditTransaction Date) → List (AuditTransaction Date)}
    (horder : FixedOrder orderBy) :
    Complete ((tables 0).upTo queryDate) (pages (fun _ => orderBy) limit queryDate tables n) ↔
      Undisturbed limit queryDate tables n := by
  have hsame : ∀ k, listing orderBy queryDate (tables k) =
      listing orderBy queryDate (tables 0) := by
    intro k
    rw [listing, listing, horder.filter, horder.filter, AuditTables.filter_union,
      AuditTables.filter_union, hgrows.upTo]
  constructor
  · exact undisturbed_of_complete hlimit hgrows (fun _ => horder.orders) hsame
  · intro hundisturbed
    refine complete_of_page_perm hgrows (fun _ => horder.orders) hn hundisturbed fun k => ?_
    rw [hsame]

/-- Such as an order that decides between any two rows. -/
theorem fixedOrder_mergeSort (le : AuditTransaction Date → AuditTransaction Date → Prop)
    [DecidableRel le] [Std.Total le] [IsTrans _ le] [Std.Antisymm le]
    (hle : ∀ a b, le a b → dateOf b ≤ dateOf a) :
    FixedOrder fun rows => rows.mergeSort (le · ·) := by
  have hsorted := List.pairwise_mergeSort' le
  refine ⟨fun rows => ⟨List.mergeSort_perm _ _, (hsorted rows).imp fun hab => hle _ _ hab⟩, ?_⟩
  intro rows p
  refine List.Perm.eq_of_pairwise' ((hsorted rows).filter p) (hsorted (rows.filter p)) ?_
  exact ((List.mergeSort_perm _ _).filter p).trans (List.mergeSort_perm _ _).symm

/-- **The audit in pages.** -/
theorem audit_iff (hlimit : 0 < limit) (hgrows : Grows queryDate tables)
    (hn : ((tables 0).upTo queryDate).length ≤ n * limit) :
    (AlwaysComplete limit queryDate tables n ↔
      Undisturbed limit queryDate tables n ∧ Separated limit ((tables 0).dates queryDate)) ∧
    ∀ orderBy, FixedOrder orderBy →
      (Complete ((tables 0).upTo queryDate) (pages (fun _ => orderBy) limit queryDate tables n) ↔
        Undisturbed limit queryDate tables n) :=
  ⟨alwaysComplete_iff hlimit hgrows hn, fun _ horder => complete_iff hlimit hgrows hn horder⟩

end

end

/-! ## Tables -/

/-- A row without a signature. -/
def auditRow (bankTransactionId : String) (date : ℕ) : AuditRow ℕ :=
  ⟨bankTransactionId, none, .finite 1, date⟩

/-- An issue is inserted after the first page. -/
def auditTables : ℕ → AuditTables ℕ
  | 0 => ⟨[auditRow "r" 4], [auditRow "i" 3], by decide, by decide⟩
  | _ + 1 => ⟨[auditRow "r" 4], [auditRow "i" 3, auditRow "later" 6], by decide, by decide⟩

theorem audit_auditTables : AlwaysComplete 1 5 auditTables 2 := by
  have hgrows : Grows 5 auditTables := by
    intro k
    cases k with
    | zero => exact ⟨[], [auditRow "later" 6], rfl, rfl, by decide⟩
    | succ k => exact ⟨[], [], rfl, rfl, by decide⟩
  have hperm : [(AuditType.redeem, auditRow "r" 4), (.issue, auditRow "i" 3)].Perm
      ((auditTables 0).upTo 5) := by decide
  have hdates := map_dateOf_eq hperm (List.pairwise_pair.mpr (by decide))
  refine (audit_iff Nat.one_pos hgrows (by decide)).1.mpr ⟨?_, ?_⟩
  · rintro (_ | k) _ <;> exact .inl rfl
  · rw [← hdates]
    rintro (_ | _ | k) a hk hbefore hafter
    · exact absurd hk (Nat.lt_irrefl 0)
    · cases hbefore
      cases hafter
    · cases hafter

/-- A redeem after the query date is on the first page, whatever the database does. -/
theorem audit_late : ¬ ∃ orderBy : ℕ → List (AuditTransaction ℕ) → List (AuditTransaction ℕ),
    (∀ k, OrdersByDate (orderBy k)) ∧
      Complete ((⟨[auditRow "r" 6], [auditRow "i" 3], by decide, by decide⟩ :
        AuditTables ℕ).upTo 5) (pages orderBy 1 5
          (fun _ => ⟨[auditRow "r" 6], [auditRow "i" 3], by decide, by decide⟩) 1) := by
  rintro ⟨orderBy, horder, hcomplete⟩
  exact absurd (late_le_of_complete Nat.one_pos horder hcomplete Nat.one_pos) (by decide)

end DocMachine.Stablecoin
