import DocMachine.Lib.Capture
import DocMachine.Lib.CString

/-!
# Book queries as text

Model of `BookSearchQuery.execute` and of the parser that reads what it writes, in
`sed_ex4_sk4520/src/main/java/ic/doc` (`BookSearchQuery.java` 7-49, `catalogues/QueryParser.java`
8-46, `Book.java` 15-30, `catalogues/BritishLibraryCatalogue.java` 26-34).

* `execute` writes the fields that are given one after the other. The parser looks for each of them
  with a regular expression of its own, anywhere in the text: `find` of a `Pattern`.
* Characters are those of Unicode; `\w` and `\d` are ASCII only and `.` is anything but a line
  terminator. An `Integer` is a number of 32 bits, and digits that are too large raise.
* A field that is `null` is `none`. `toLowerCase` is a parameter.

Results:
* `find_append` and `find_append_skip`: the search in a field and in what follows it.
* `find_title`, `find_names`, `find_date`: what the patterns find in the fields that they are not
  for.
* `roundTrip_iff`: a query is read back iff it is `Plain`: its names are words, its title has no
  line break and no closing bracket but at the start, and the title does not look like one of the
  other fields where that field is missing or different.
* `RoundTrip.execute`: a query that is read back finds the books that it asks for.
-/

namespace DocMachine.Books

open DocMachine.Lib DocMachine.Lib.Capture

/-! ## BookSearchQuery.java -/

/-- `BookSearchQuery`. -/
structure BookSearchQuery where
  name1 : Option (List Char)
  name2 : Option (List Char)
  title : Option (List Char)
  date1 : Option ℤ
  date2 : Option ℤ

/-- `query.append(before).append(field).append(after)`, if the field is given. -/
def append (before after : String) (field : Option (List Char)) : List Char :=
  match field with
  | none => []
  | some text => before.toList ++ text ++ after.toList

/-- What `execute` passes to `searchFor`. -/
def BookSearchQuery.text (q : BookSearchQuery) : List Char :=
  append "FIRSTNAME='" "' " q.name1 ++
    (append "LASTNAME='" "' " q.name2 ++
      (append "TITLECONTAINS(" ") " q.title ++
        (append "PUBLISHEDAFTER(" ") " (q.date1.map CString.signedDecimal) ++
          append "PUBLISHEDBEFORE(" ") " (q.date2.map CString.signedDecimal))))

/-! ## QueryParser.java -/

/-- `\w`. -/
def isWordChar (c : Char) : Bool := c.isAlphanum || c = '_'

/-- `.` -/
def isDot (c : Char) : Bool :=
  c ∉ ['\n', '\r', Char.ofNat 0x85, Char.ofNat 0x2028, Char.ofNat 0x2029]

/-- `PUBLISHEDAFTER\((\d+)\)`. -/
def publishedAfter : Pattern Char := ⟨"PUBLISHEDAFTER(".toList, Char.isDigit, false, [')']⟩

/-- `PUBLISHEDBEFORE\((\d+)\)`. -/
def publishedBefore : Pattern Char := ⟨"PUBLISHEDBEFORE(".toList, Char.isDigit, false, [')']⟩

/-- `TITLECONTAINS\((.+?)\)`. -/
def title : Pattern Char := ⟨"TITLECONTAINS(".toList, isDot, true, [')']⟩

/-- `FIRSTNAME='(\w+)'`. -/
def firstName : Pattern Char := ⟨"FIRSTNAME='".toList, isWordChar, false, ['\'']⟩

/-- `LASTNAME='(\w+)'`. -/
def lastName : Pattern Char := ⟨"LASTNAME='".toList, isWordChar, false, ['\'']⟩

/-- The number that digits denote. -/
def number (digits : List Char) : ℕ := Nat.ofDigitChars 10 digits 0

/-- `Integer.parseInt` of digits; `none` is a `NumberFormatException`. -/
def parseInt (digits : List Char) : Option ℤ :=
  if number digits < 2 ^ 31 then some (number digits) else none

/-- The date of the leftmost match, or `null`. -/
def dateFrom (p : Pattern Char) (query : List Char) : Option (Option ℤ) :=
  match p.find query with
  | some digits => (parseInt digits).map some
  | none => some none

/-- `publishedAfterFrom`. -/
def publishedAfterFrom (query : List Char) : Option (Option ℤ) := dateFrom publishedAfter query

/-- `publishedBeforeFrom`. -/
def publishedBeforeFrom (query : List Char) : Option (Option ℤ) := dateFrom publishedBefore query

/-- `titleFrom`. -/
def titleFrom (query : List Char) : Option (List Char) := title.find query

/-- `firstNameFrom`. -/
def firstNameFrom (query : List Char) : Option (List Char) := firstName.find query

/-- `lastNameFrom`. -/
def lastNameFrom (query : List Char) : Option (List Char) := lastName.find query

/-! ## Book.java and BritishLibraryCatalogue.java -/

/-- `Book`. -/
structure Book where
  title : List Char
  author : List Char
  published : ℤ

section

variable (toLowerCase : List Char → List Char)

namespace Book

variable (book : Book)

/-- `matchesAuthor`: every author contains `null`. -/
def matchesAuthor (author : Option (List Char)) : Bool :=
  author.all fun author => toLowerCase author <:+: toLowerCase book.author

/-- `matchesTitle`. -/
def matchesTitle (title : Option (List Char)) : Bool :=
  title.all fun title => toLowerCase title <:+: toLowerCase book.title

/-- `publishedSince`. -/
def publishedSince (year : Option ℤ) : Bool := year.all fun year => book.published > year

/-- `publishedBefore`. -/
def publishedBefore (year : Option ℤ) : Bool := year.all fun year => book.published < year

/-- The five filters of `searchFor`. A date is only read for a book that has passed the filters
before; `none` is the exception. -/
def passes (query : List Char) : Option Bool :=
  if !book.matchesAuthor toLowerCase (lastNameFrom query) then some false
  else if !book.matchesAuthor toLowerCase (firstNameFrom query) then some false
  else if !book.matchesTitle toLowerCase (titleFrom query) then some false
  else do
    let since ← publishedAfterFrom query
    if !book.publishedSince since then return false
    let before ← publishedBeforeFrom query
    return book.publishedBefore before

end Book

/-- `searchFor` on the books of the catalogue. -/
def searchFor (query : List Char) : List Book → Option (List Book)
  | [] => some []
  | book :: catalogue => do
    let passed ← book.passes toLowerCase query
    let books ← searchFor query catalogue
    return if passed then book :: books else books

/-- The catalogue is given to `execute`. -/
def BookSearchQuery.execute (q : BookSearchQuery) (catalogue : List Book) : Option (List Book) :=
  searchFor toLowerCase q.text catalogue

/-- What the fields of a query ask for. -/
def BookSearchQuery.accepts (q : BookSearchQuery) (book : Book) : Bool :=
  book.matchesAuthor toLowerCase q.name2 && book.matchesAuthor toLowerCase q.name1 &&
    book.matchesTitle toLowerCase q.title && book.publishedSince q.date1 &&
    book.publishedBefore q.date2

end

/-! ## What should be read back -/

/-- The parser gives the five fields back. -/
structure RoundTrip (q : BookSearchQuery) : Prop where
  name1 : firstNameFrom q.text = q.name1
  name2 : lastNameFrom q.text = q.name2
  title : titleFrom q.text = q.title
  date1 : publishedAfterFrom q.text = some q.date1
  date2 : publishedBeforeFrom q.text = some q.date2

/-- The title ends like a field with the text `digits`: the bracket behind it is that of the
title. -/
def EndsWith (p : Pattern Char) (digits t : List Char) : Prop :=
  p.Group digits ∧ p.before ++ digits <:+ t

/-- **A query that is read back.** -/
structure Plain (q : BookSearchQuery) : Prop where
  name1 : ∀ n ∈ q.name1, firstName.Group n
  name2 : ∀ n ∈ q.name2, lastName.Group n
  title : ∀ t ∈ q.title, Books.title.Group t ∧ ')' ∉ t.tail
  notName1 : ∀ t ∈ q.title, q.name1 = none → ∀ n, ¬ firstName.Occurs n t
  notName2 : ∀ t ∈ q.title, q.name2 = none → ∀ n, ¬ lastName.Occurs n t
  notDate1 : ∀ t ∈ q.title, ∀ digits, EndsWith publishedAfter digits t →
    q.date1 = some (number digits : ℤ)
  notDate2 : ∀ t ∈ q.title, ∀ digits, EndsWith publishedBefore digits t →
    q.date2 = some (number digits : ℤ)

/-- An `Integer` that is not negative. -/
def IsDate (d : ℤ) : Prop := 0 ≤ d ∧ d < 2 ^ 31

/-! ## The text of a query -/

theorem not_infix_of_mem {α : Type} {l u : List α} {c : α} (hc : c ∈ l) (hu : c ∉ u) :
    ¬ l <:+: u := fun h => hu (h.subset hc)

section

variable {p : Pattern Char} {before after : String} {a : List Char} {field : Option (List Char)}
  {rest : List Char}

/-- The search in a field and in what follows it. -/
theorem find_append (hafter : after.toList = a ++ [' ']) (hp : p.Avoids ' ') :
    p.find (append before after field ++ rest) =
      (field.bind fun text => p.find (before.toList ++ text ++ a)).or (p.find rest) := by
  cases field with
  | none => rfl
  | some text =>
    have htext : append before after (some text) ++ rest =
        (before.toList ++ text ++ a) ++ ' ' :: rest := by
      simp [append, hafter]
    rw [htext, Pattern.find_append_cons hp]
    rfl

/-- A field in which the pattern does not begin. -/
theorem find_append_skip (hafter : after.toList = a ++ [' ']) (hp : ' ' ∉ p.before)
    (hfield : ∀ text ∈ field, ¬ p.before <:+: before.toList ++ text ++ a) :
    p.find (append before after field ++ rest) = p.find rest := by
  cases field with
  | none => rfl
  | some text =>
    have htext : append before after (some text) ++ rest =
        (before.toList ++ text ++ a) ++ ' ' :: rest := by
      simp [append, hafter]
    rw [htext, Pattern.find_append_cons_of_not_infix hp (hfield text rfl)]

end

/-! ## Where a pattern cannot begin -/

variable {q : BookSearchQuery} {n t digits : List Char} {p : Pattern Char}

theorem not_mem_word {c : Char} (hn : ∀ c ∈ n, isWordChar c = true) (hc : isWordChar c = false) :
    c ∉ n := fun h => absurd (hn c h) (by rw [hc]; decide)

theorem isDigit_signedDecimal {d : ℤ} (hd : 0 ≤ d) {c : Char}
    (hc : c ∈ CString.signedDecimal d) : c.isDigit = true := by
  rw [CString.signedDecimal, if_neg (by omega)] at hc
  exact CString.isDigit_of_mem_decimal hc

/-- Only names have no bracket before their text. -/
theorem not_infix_name {before : String} (hp : '(' ∈ p.before) (hbefore : '(' ∉ before.toList)
    (hn : ∀ c ∈ n, isWordChar c = true) : ¬ p.before <:+: before.toList ++ n ++ ['\''] := by
  refine not_infix_of_mem hp ?_
  simp only [List.mem_append, List.mem_singleton, not_or]
  exact ⟨⟨hbefore, not_mem_word hn (by decide)⟩, by decide⟩

theorem not_infix_date {before : String} {c : Char} {d : ℤ} (hd : 0 ≤ d) (hp : c ∈ p.before)
    (hbefore : c ∉ before.toList) (hc : c.isDigit = false) (hne : c ≠ ')') :
    ¬ p.before <:+: before.toList ++ CString.signedDecimal d ++ [')'] := by
  refine not_infix_of_mem hp ?_
  simp only [List.mem_append, List.mem_singleton, not_or]
  refine ⟨⟨hbefore, fun h => ?_⟩, hne⟩
  rw [isDigit_signedDecimal hd h] at hc
  cases hc

/-- What stands before the only `=` is the name of the other field. -/
theorem not_infix_other {x y : List Char} {l : List Char} (hy : '=' ∉ y) (hl : '=' ∉ l)
    (hxy : ¬ x <:+ y) : ¬ x ++ '=' :: ['\''] <:+: y ++ '=' :: l := by
  rintro ⟨s, t, h⟩
  rw [List.append_assoc, List.append_assoc, List.cons_append, ← List.append_assoc] at h
  obtain ⟨h, -⟩ := (List.append_cons_inj_of_notMem hy hl).mp h.symm
  exact hxy ⟨s, h.symm⟩

theorem not_infix_firstName (hn : ∀ c ∈ n, isWordChar c = true) :
    ¬ firstName.before <:+: "LASTNAME='".toList ++ n ++ ['\''] := by
  refine not_infix_other (x := "FIRSTNAME".toList) (y := "LASTNAME".toList)
    (l := '\'' :: (n ++ ['\''])) (by decide) ?_ (by decide)
  simp only [List.mem_cons, List.mem_append, List.not_mem_nil, or_false, not_or]
  exact ⟨by decide, not_mem_word hn (by decide), by decide⟩

theorem not_infix_lastName (hn : ∀ c ∈ n, isWordChar c = true) :
    ¬ lastName.before <:+: "FIRSTNAME='".toList ++ n ++ ['\''] := by
  refine not_infix_other (x := "LASTNAME".toList) (y := "FIRSTNAME".toList)
    (l := '\'' :: (n ++ ['\''])) (by decide) ?_ (by decide)
  simp only [List.mem_cons, List.mem_append, List.not_mem_nil, or_false, not_or]
  exact ⟨by decide, not_mem_word hn (by decide), by decide⟩

/-! ## Fields in the title -/

/-- In the title field a pattern without brackets is found where it is in the title. -/
theorem find_title {title : Option (List Char)} (hopen : p.Avoids '(') (hclose : p.Avoids ')')
    (hp : ¬ p.before <:+: "TITLECONTAINS".toList) :
    (title.bind fun t => p.find ("TITLECONTAINS(".toList ++ t ++ [')'])) = title.bind p.find := by
  congr 1
  funext t
  have htext : "TITLECONTAINS(".toList ++ t ++ [')'] =
      "TITLECONTAINS".toList ++ '(' :: (t ++ ')' :: []) := by simp
  have hnil : p.find [] = none := Pattern.find_eq_none_of_not_infix fun h =>
    hp (h.trans (List.nil_infix))
  rw [htext, Pattern.find_append_cons hopen, Pattern.find_append_cons hclose,
    Pattern.find_eq_none_of_not_infix hp, hnil, Option.none_or, Option.or_none]

/-- Digits behind a bracket are the last ones of a text. -/
theorem digits_unique {x y digits digits' : List Char} (hd : '(' ∉ digits) (hd' : '(' ∉ digits')
    (h : x ++ '(' :: digits = y ++ '(' :: digits') : digits = digits' := by
  -- the shorter text cannot go on with a bracket
  have hsame : ∀ {z u v : List Char}, '(' ∉ u → '(' :: u = z ++ '(' :: v → u = v := by
    intro z u v hu h
    cases z with
    | nil => exact (List.cons.inj h).2
    | cons c z =>
      have hz : u = z ++ '(' :: v := (List.cons.inj h).2
      exact absurd (by simp [hz]) hu
  obtain ⟨z, -, h⟩ | ⟨z, -, h⟩ := List.append_eq_append_iff.mp h
  · exact hsame hd h
  · exact (hsame hd' h).symm

theorem occurs_title (hp : ∃ before, p.before = 'P' :: (before ++ ['(']))
    (hafter : p.after = [')']) (hmember : p.member = Char.isDigit) (ht : ')' ∉ t.tail) :
    p.Occurs digits ("TITLECONTAINS(".toList ++ t ++ [')']) ↔ EndsWith p digits t := by
  constructor
  · rintro ⟨hgroup, u, v, h⟩
    refine ⟨hgroup, ?_⟩
    rw [hafter] at h
    -- a bracket inside the title is its first character, and no digit stands before it
    have hinside : ∀ v, u ++ (p.before ++ digits) ++ ')' :: v ≠ "TITLECONTAINS(".toList ++ t := by
      intro v h
      cases t with
      | nil =>
        have hmem : ')' ∈ u ++ (p.before ++ digits) ++ ')' :: v := by simp
        rw [h] at hmem
        exact absurd hmem (by decide)
      | cons c t =>
        obtain ⟨h, -⟩ := (List.append_cons_inj_of_notMem (by decide) ht).mp h.symm
        obtain ⟨digits, c, rfl⟩ := (List.eq_nil_or_concat digits).resolve_left hgroup.ne_nil
        have hlast : u ++ (p.before ++ digits) ++ [c] = "TITLECONTAINS".toList ++ ['('] := by
          simpa using h.symm
        obtain ⟨-, rfl⟩ := List.append_singleton_inj.mp hlast
        have hdigit := hgroup.member '(' (by simp)
        rw [hmember] at hdigit
        exact absurd hdigit (by decide)
    obtain rfl | ⟨v, c, rfl⟩ := List.eq_nil_or_concat v
    · have hend : u ++ (p.before ++ digits) = "TITLECONTAINS(".toList ++ t := by
        have h : u ++ (p.before ++ digits) ++ [')'] = "TITLECONTAINS(".toList ++ t ++ [')'] := by
          simpa using h
        exact (List.append_singleton_inj.mp h).1
      obtain ⟨z, hz, ht⟩ | ⟨z, -, ht⟩ := List.append_eq_append_iff.mp hend
      · cases z with
        | nil => exact ⟨[], by simpa using ht⟩
        | cons c z =>
          obtain ⟨before, hp⟩ := hp
          rw [hp, List.cons_append, List.cons_append] at ht
          have hmem : 'P' ∈ "TITLECONTAINS(".toList := by
            rw [hz, (List.cons.inj ht).1]
            simp
          exact absurd hmem (by decide)
      · exact ⟨z, ht.symm⟩
    · have h : u ++ (p.before ++ digits) ++ ')' :: v ++ [c] =
          "TITLECONTAINS(".toList ++ t ++ [')'] := by
        simpa using h
      exact absurd (List.append_singleton_inj.mp h).1 (hinside v)
  · rintro ⟨hgroup, u, rfl⟩
    refine ⟨hgroup, "TITLECONTAINS(".toList ++ u, [], ?_⟩
    simp [hafter]

/-! ## The five fields -/

/-- A field that the pattern is for. -/
theorem find_field {before : String} {field : Option (List Char)} {c : Char}
    (hbefore : p.before = before.toList) (hgreedy : p.lazy = false) (hafter : p.after = [c])
    (hc : p.member c = false) (hgroup : ∀ g ∈ field, p.Group g) :
    (field.bind fun text => p.find (before.toList ++ text ++ [c])) = field := by
  cases field with
  | none => rfl
  | some g =>
    have hfound : p.group (g ++ [c]) = some g := by
      have h := Pattern.group_greedy (v := []) hgreedy (hgroup g rfl) hafter hc
      rwa [List.append_nil, hafter] at h
    rw [Option.bind_some, ← hbefore, List.append_assoc,
      Pattern.find_append (by rw [hfound]; rfl), hfound]

/-- The search in the names of a pattern with a bracket. -/
theorem find_names {name1 name2 : Option (List Char)} {rest : List Char}
    (hname1 : ∀ n ∈ name1, firstName.Group n) (hname2 : ∀ n ∈ name2, lastName.Group n)
    (hp : ' ' ∉ p.before) (hmem : '(' ∈ p.before) :
    p.find (append "FIRSTNAME='" "' " name1 ++ (append "LASTNAME='" "' " name2 ++ rest)) =
      p.find rest := by
  rw [find_append_skip (a := ['\'']) rfl hp, find_append_skip (a := ['\'']) rfl hp]
  · exact fun n hn => not_infix_name hmem (by decide) (hname2 n hn).member
  · exact fun n hn => not_infix_name hmem (by decide) (hname1 n hn).member

/-- A field with a date is skipped by a pattern that needs a character it does not have. -/
theorem find_date {before : String} {date : Option ℤ} {rest : List Char}
    (hdate : ∀ d ∈ date, IsDate d) (hp : ' ' ∉ p.before)
    (hforeign : ∃ c ∈ p.before, c ∉ before.toList ∧ c.isDigit = false ∧ c ≠ ')') :
    p.find (append before ") " (date.map CString.signedDecimal) ++ rest) = p.find rest := by
  obtain ⟨c, hmem, hbefore, hc, hne⟩ := hforeign
  refine find_append_skip (a := [')']) rfl hp fun text htext => ?_
  obtain ⟨d, hd, rfl⟩ := Option.map_eq_some_iff.mp htext
  exact not_infix_date (hdate d hd).1 hmem hbefore hc hne

theorem find_nil (hp : p.before ≠ []) : p.find [] = none :=
  Pattern.find_eq_none_of_not_infix fun h => hp (List.infix_nil.mp h)

/-- Nothing but dates is found in the dates. -/
theorem find_dates {date1 date2 : Option ℤ} (hdate1 : ∀ d ∈ date1, IsDate d)
    (hdate2 : ∀ d ∈ date2, IsDate d) (hp : ' ' ∉ p.before)
    (hforeign : ∃ c ∈ p.before, (c ∉ "PUBLISHEDAFTER(".toList ∧ c ∉ "PUBLISHEDBEFORE(".toList) ∧
      c.isDigit = false ∧ c ≠ ')') :
    p.find (append "PUBLISHEDAFTER(" ") " (date1.map CString.signedDecimal) ++
      append "PUBLISHEDBEFORE(" ") " (date2.map CString.signedDecimal)) = none := by
  obtain ⟨c, hmem, ⟨h1, h2⟩, hc⟩ := hforeign
  rw [find_date hdate1 hp ⟨c, hmem, h1, hc⟩, ← List.append_nil (append _ _ _),
    find_date hdate2 hp ⟨c, hmem, h2, hc⟩, find_nil (List.ne_nil_of_mem hmem)]

theorem signedDecimal_group {date : Option ℤ} (hdate : ∀ d ∈ date, IsDate d)
    (hmember : p.member = Char.isDigit) : ∀ g ∈ date.map CString.signedDecimal, p.Group g := by
  intro g hg
  obtain ⟨d, hd, rfl⟩ := Option.map_eq_some_iff.mp hg
  refine ⟨CString.signedDecimal_ne_nil, fun c hc => ?_⟩
  rw [hmember]
  exact isDigit_signedDecimal (hdate d hd).1 hc

section

variable (hname1 : ∀ n ∈ q.name1, firstName.Group n) (hname2 : ∀ n ∈ q.name2, lastName.Group n)
  (hdate1 : ∀ d ∈ q.date1, IsDate d) (hdate2 : ∀ d ∈ q.date2, IsDate d)

include hname1 hname2 hdate1 hdate2

theorem firstNameFrom_text :
    firstNameFrom q.text = q.name1.or (q.title.bind firstName.find) := by
  unfold firstNameFrom BookSearchQuery.text
  rw [find_append (a := ['\'']) rfl (by decide), find_field rfl rfl rfl rfl hname1,
    find_append_skip (a := ['\'']) rfl (by decide)
      fun n hn => not_infix_firstName (hname2 n hn).member,
    find_append (a := [')']) rfl (by decide), find_title (by decide) (by decide) (by decide),
    find_dates hdate1 hdate2 (by decide) ⟨'=', by decide⟩, Option.or_none]

theorem lastNameFrom_text :
    lastNameFrom q.text = q.name2.or (q.title.bind lastName.find) := by
  unfold lastNameFrom BookSearchQuery.text
  rw [find_append_skip (a := ['\'']) rfl (by decide)
      fun n hn => not_infix_lastName (hname1 n hn).member,
    find_append (a := ['\'']) rfl (by decide), find_field rfl rfl rfl rfl hname2,
    find_append (a := [')']) rfl (by decide), find_title (by decide) (by decide) (by decide),
    find_dates hdate1 hdate2 (by decide) ⟨'=', by decide⟩, Option.or_none]

theorem titleFrom_text : titleFrom q.text = q.title ↔
    ∀ t ∈ q.title, title.Group t ∧ ')' ∉ t.tail := by
  unfold titleFrom BookSearchQuery.text
  rw [find_names hname1 hname2 (by decide) (by decide)]
  cases q.title with
  | none =>
    have hnone := find_dates (p := title) hdate1 hdate2 (by decide) ⟨'C', by decide⟩
    simpa [append] using hnone
  | some t =>
    have htext : ∀ rest, append "TITLECONTAINS(" ") " (some t) ++ rest =
        title.before ++ (t ++ ')' :: ' ' :: rest) := by
      intro rest
      rw [append, List.append_assoc, List.append_assoc]
      rfl
    rw [htext, Pattern.find_lazy rfl rfl]
    simp

theorem publishedAfter_text : publishedAfter.find q.text =
    (q.title.bind fun t => publishedAfter.find ("TITLECONTAINS(".toList ++ t ++ [')'])).or
      (q.date1.map CString.signedDecimal) := by
  unfold BookSearchQuery.text
  rw [find_names hname1 hname2 (by decide) (by decide),
    find_append (a := [')']) rfl (by decide), find_append (a := [')']) rfl (by decide),
    find_field rfl rfl rfl rfl (signedDecimal_group hdate1 rfl), ← List.append_nil (append _ _ _),
    find_date hdate2 (by decide) ⟨'A', by decide⟩, find_nil (by decide), Option.or_none]

theorem publishedBefore_text : publishedBefore.find q.text =
    (q.title.bind fun t => publishedBefore.find ("TITLECONTAINS(".toList ++ t ++ [')'])).or
      (q.date2.map CString.signedDecimal) := by
  unfold BookSearchQuery.text
  rw [find_names hname1 hname2 (by decide) (by decide),
    find_append (a := [')']) rfl (by decide), find_date hdate1 (by decide) ⟨'O', by decide⟩,
    ← List.append_nil (append _ _ _), find_append (a := [')']) rfl (by decide),
    find_field rfl rfl rfl rfl (signedDecimal_group hdate2 rfl), find_nil (by decide),
    Option.or_none]

end

/-- A date is read back if no text of the title is taken for it. -/
theorem dateFrom_iff {query : List Char} {date : Option ℤ}
    (hp : ∃ before, p.before = 'P' :: (before ++ ['('])) (hafter : p.after = [')'])
    (hmember : p.member = Char.isDigit) (hdate : ∀ d ∈ date, IsDate d)
    (htitle : ∀ t ∈ q.title, ')' ∉ t.tail)
    (hfind : p.find query =
      (q.title.bind fun t => p.find ("TITLECONTAINS(".toList ++ t ++ [')'])).or
        (date.map CString.signedDecimal)) :
    dateFrom p query = some date ↔
      ∀ t ∈ q.title, ∀ digits, EndsWith p digits t → date = some (number digits : ℤ) := by
  have hplain : p.find query = date.map CString.signedDecimal → dateFrom p query = some date := by
    intro h
    unfold dateFrom
    rw [h]
    cases date with
    | none => rfl
    | some d =>
      obtain ⟨hnonneg, hlt⟩ := hdate d rfl
      have hnumber : (number (CString.signedDecimal d) : ℤ) = d := by
        rw [CString.signedDecimal, if_neg (by omega), number, CString.decimal,
          Nat.ofDigitChars_ten_toDigits]
        omega
      rw [Option.map_some]
      simp only [parseInt]
      rw [if_pos (by omega), hnumber]
      rfl
  have hother : ∀ digits, p.find query = some digits →
      (dateFrom p query = some date ↔ date = some (number digits : ℤ)) := by
    intro digits h
    unfold dateFrom
    rw [h]
    simp only [parseInt]
    split
    · simp [eq_comm]
    · next hlarge =>
      have hne : date ≠ some (number digits : ℤ) := by
        rintro rfl
        have := (hdate _ rfl).2
        omega
      simp [hne]
  cases hq : q.title with
  | none =>
    rw [hq, Option.bind_none, Option.none_or] at hfind
    simp [hplain hfind]
  | some t =>
    rw [hq, Option.bind_some] at hfind
    have hoccurs : ∀ digits, p.Occurs digits ("TITLECONTAINS(".toList ++ t ++ [')']) ↔
        EndsWith p digits t := fun _ => occurs_title hp hafter hmember (htitle t hq)
    have hends : (∀ t' ∈ some t, ∀ digits, EndsWith p digits t' →
        date = some (number digits : ℤ)) ↔
        ∀ digits, EndsWith p digits t → date = some (number digits : ℤ) := by
      simp
    rw [hends]
    cases hbody : p.find ("TITLECONTAINS(".toList ++ t ++ [')']) with
    | none =>
      rw [hbody, Option.none_or] at hfind
      have hnone := Pattern.find_eq_none_iff.mp hbody
      constructor
      · intro _ digits hdigits
        exact absurd ((hoccurs digits).mpr hdigits) (hnone digits)
      · exact fun _ => hplain hfind
    | some digits =>
      rw [hbody, Option.some_or] at hfind
      have hdigits := (hoccurs digits).mp (Pattern.find_occurs hbody)
      rw [hother digits hfind]
      constructor
      · intro h digits' hdigits'
        obtain ⟨before, hp⟩ := hp
        obtain ⟨hgroup, u, hu⟩ := hdigits
        obtain ⟨hgroup', u', hu'⟩ := hdigits'
        have hbracket : ∀ {digits}, p.Group digits → '(' ∉ digits := by
          intro digits hgroup hmem
          have h := hgroup.member _ hmem
          rw [hmember] at h
          exact absurd h (by decide)
        have hsame : digits = digits' := by
          refine digits_unique (x := u ++ 'P' :: before) (y := u' ++ 'P' :: before)
            (hbracket hgroup) (hbracket hgroup') ?_
          rw [hp] at hu hu'
          simpa using hu.trans hu'.symm
        rw [← hsame, h]
      · exact fun h => h digits hdigits

theorem or_find_iff {name : Option (List Char)} : name.or (q.title.bind p.find) = name ↔
    ∀ t ∈ q.title, name = none → ∀ n, ¬ p.Occurs n t := by
  cases name with
  | some n => simp
  | none =>
    cases q.title with
    | none => simp
    | some t => simp [Pattern.find_eq_none_iff]

theorem RoundTrip.plain (h : RoundTrip q) (hdate1 : ∀ d ∈ q.date1, IsDate d)
    (hdate2 : ∀ d ∈ q.date2, IsDate d) : Plain q := by
  have hname1 : ∀ n ∈ q.name1, firstName.Group n := fun n hn =>
    (Pattern.find_occurs (h.name1.trans hn)).1
  have hname2 : ∀ n ∈ q.name2, lastName.Group n := fun n hn =>
    (Pattern.find_occurs (h.name2.trans hn)).1
  have htitle := (titleFrom_text hname1 hname2 hdate1 hdate2).mp h.title
  refine ⟨hname1, hname2, htitle, ?_, ?_, ?_, ?_⟩
  · exact or_find_iff.mp ((firstNameFrom_text hname1 hname2 hdate1 hdate2).symm.trans h.name1)
  · exact or_find_iff.mp ((lastNameFrom_text hname1 hname2 hdate1 hdate2).symm.trans h.name2)
  · exact (dateFrom_iff ⟨"UBLISHEDAFTER".toList, rfl⟩ rfl rfl hdate1 (fun t ht => (htitle t ht).2)
      (publishedAfter_text hname1 hname2 hdate1 hdate2)).mp h.date1
  · exact (dateFrom_iff ⟨"UBLISHEDBEFORE".toList, rfl⟩ rfl rfl hdate2 (fun t ht => (htitle t ht).2)
      (publishedBefore_text hname1 hname2 hdate1 hdate2)).mp h.date2

theorem Plain.roundTrip (h : Plain q) (hdate1 : ∀ d ∈ q.date1, IsDate d)
    (hdate2 : ∀ d ∈ q.date2, IsDate d) : RoundTrip q := by
  obtain ⟨hname1, hname2, htitle, hnot1, hnot2, hnotDate1, hnotDate2⟩ := h
  refine ⟨?_, ?_, ?_, ?_, ?_⟩
  · exact (firstNameFrom_text hname1 hname2 hdate1 hdate2).trans (or_find_iff.mpr hnot1)
  · exact (lastNameFrom_text hname1 hname2 hdate1 hdate2).trans (or_find_iff.mpr hnot2)
  · exact (titleFrom_text hname1 hname2 hdate1 hdate2).mpr htitle
  · exact (dateFrom_iff ⟨"UBLISHEDAFTER".toList, rfl⟩ rfl rfl hdate1 (fun t ht => (htitle t ht).2)
      (publishedAfter_text hname1 hname2 hdate1 hdate2)).mpr hnotDate1
  · exact (dateFrom_iff ⟨"UBLISHEDBEFORE".toList, rfl⟩ rfl rfl hdate2 (fun t ht => (htitle t ht).2)
      (publishedBefore_text hname1 hname2 hdate1 hdate2)).mpr hnotDate2

/-- A query that is read back finds the books that it asks for. -/
theorem RoundTrip.execute (h : RoundTrip q) (toLowerCase : List Char → List Char)
    (catalogue : List Book) :
    q.execute toLowerCase catalogue = some (catalogue.filter (q.accepts toLowerCase)) := by
  have hpasses : ∀ book : Book, book.passes toLowerCase q.text =
      some (q.accepts toLowerCase book) := by
    intro book
    unfold Book.passes BookSearchQuery.accepts
    rw [h.name1, h.name2, h.title, h.date1, h.date2]
    cases book.matchesAuthor toLowerCase q.name2 with
    | false => rfl
    | true =>
    cases book.matchesAuthor toLowerCase q.name1 with
    | false => rfl
    | true =>
    cases book.matchesTitle toLowerCase q.title with
    | false => rfl
    | true => cases hsince : book.publishedSince q.date1 <;> simp [hsince]
  unfold BookSearchQuery.execute
  induction catalogue with
  | nil => rfl
  | cons book catalogue ih =>
    rw [searchFor, hpasses, ih]
    cases hbook : q.accepts toLowerCase book <;> simp [hbook]

/-- **The parser gives exactly the plain queries back.** -/
theorem roundTrip_iff (q : BookSearchQuery) (hdate1 : ∀ d ∈ q.date1, IsDate d)
    (hdate2 : ∀ d ∈ q.date2, IsDate d) : RoundTrip q ↔ Plain q :=
  ⟨fun h => h.plain hdate1 hdate2, fun h => h.roundTrip hdate1 hdate2⟩

theorem roundTrip_plain :
    RoundTrip ⟨some "Ada".toList, none, some "FIRSTNAME='Bob'".toList, some 1843, none⟩ := by
  have hbracket : ∀ {p : Pattern Char} {digits}, '(' ∈ p.before →
      ¬ EndsWith p digits "FIRSTNAME='Bob'".toList := fun hp h =>
    absurd (h.2.subset (List.mem_append_left _ hp)) (by decide)
  refine (roundTrip_iff _ ?_ ?_).mpr ⟨?_, nofun, ?_, nofun, ?_, ?_, ?_⟩
  · rintro d ⟨⟩
    exact ⟨by decide, by decide⟩
  · rintro d ⟨⟩
  · rintro n ⟨⟩
    exact ⟨by decide, List.all_eq_true.mp rfl⟩
  · rintro t ⟨⟩
    exact ⟨⟨by decide, List.all_eq_true.mp rfl⟩, by decide⟩
  · rintro t ⟨⟩ -
    exact Pattern.find_eq_none_iff.mp (by decide)
  · rintro t ⟨⟩ digits h
    exact absurd h (hbracket (by decide))
  · rintro t ⟨⟩ digits h
    exact absurd h (hbracket (by decide))

/-- A name of two words is lost. -/
theorem not_roundTrip_words : ¬ RoundTrip ⟨some "Mary Ann".toList, none, none, none, none⟩ :=
  fun h => absurd h.name1 (by decide)

end DocMachine.Books
