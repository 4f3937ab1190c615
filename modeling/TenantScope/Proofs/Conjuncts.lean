import Mathlib.Data.List.Induction
import Mathlib.Data.List.Infix
import TenantScope.Proofs.Placement
import TenantScope.Repair.TrailingCondition

/-!
# What counts as a condition on the scope column

A condition is searched for the scope column, which may be qualified, with an equals sign after it.
It counts as a term when it begins the range that is searched or follows a `WHERE` or an `AND`.  The
search looks back over one keyword and no further, so the `AND` may complete a `BETWEEN`, and the
term may lie within `CASE ... END`.
-/

namespace TenantScope

namespace Scope

open Text

/-! ## The search -/

/-- A column is found at a place only if a word begins there. -/
theorem isPredicateAt_inside {text column : Text} {start stop : Nat} {site : Site}
    (name : IsName column) (inside : site.afterIdentifier = true) :
    isPredicateAt text column start stop site = false := by
  have silent : site.spoken = [] := by simp [Site.spoken, inside]
  simp [isPredicateAt, Site.word?_of_isName name, silent, name.nonempty.symm]

theorem predicateWidth_cases {column : Text} (name : IsName column) {site : Site}
    (outside : site.atQuote = false) :
    predicateWidth column site = 1 ∨
      site.spoken = column ∧ predicateWidth column site = column.length := by
  rw [predicateWidth, outside, Site.word?_of_isName name]
  by_cases spoken_eq : site.spoken = column
  · cases site.isTopLevel <;> simp [spoken_eq]
  · simp [spoken_eq]

/-- While the search jumps over a column, a reading of every place is in the middle of a word. -/
def InStep (jump skip : Nat) (back rest : Text) : Prop :=
  jump = skip ∨ skip = 0 ∧ 0 < jump ∧ back.head?.any Byte.isIdentifier = true ∧
    ∀ byte ∈ rest.take jump, byte.isIdentifier = true

theorem inStep_of_word {jump : Nat} {back rest : Text}
    (inside : back.head?.any Byte.isIdentifier = true)
    (identifiers : ∀ byte ∈ rest.take jump, byte.isIdentifier = true) :
    InStep jump 0 back rest := by
  rcases Nat.eq_zero_or_pos jump with rfl | jumps
  · exact .inl rfl
  · exact .inr ⟨rfl, jumps, inside, identifiers⟩

/-- A visit of one place keeps the search and the reading in step. -/
theorem inStep_visit {column : Text} (name : IsName column) (back : Text) (byte : Byte)
    (rest : Text) (offset depth : Nat) :
    InStep (predicateWidth column ⟨back, byte :: rest, offset, depth⟩ - 1)
      (Site.lexemeWidth .standard ⟨back, byte :: rest, offset, depth⟩ - 1) (byte :: back) rest := by
  cases quote : byte.isQuote with
  | true =>
      left
      simp [predicateWidth, Site.lexemeWidth, Site.atQuote, Site.byte?, quote]
  | false =>
      have outside : Site.atQuote ⟨back, byte :: rest, offset, depth⟩ = false := by
        simp [Site.atQuote, Site.byte?, quote]
      have one : Site.lexemeWidth .standard ⟨back, byte :: rest, offset, depth⟩ = 1 := by
        simp [Site.lexemeWidth, outside]
      rw [one]
      rcases predicateWidth_cases name outside with width_eq | ⟨spoken_eq, width_eq⟩
      · rw [width_eq]
        exact .inl rfl
      · have identifiers (next : Byte) (member : next ∈ (byte :: rest).take column.length) :
            next.isIdentifier = true :=
          @Site.isIdentifier_of_mem_take ⟨back, byte :: rest, offset, depth⟩ _ (by rwa [spoken_eq])
        have length_pos := List.length_pos_iff.mpr name.nonempty
        obtain ⟨length, length_eq⟩ : ∃ length, column.length = length + 1 :=
          ⟨column.length - 1, by omega⟩
        rw [length_eq, List.take_succ_cons] at identifiers
        rw [width_eq, length_eq, Nat.add_sub_cancel]
        exact inStep_of_word (by simpa using identifiers byte (by simp))
          fun next member => identifiers next (by simp [member])

/-- The search jumps over a column, in the middle of which no other one begins, so it finds what a
reading of all lexemes finds. -/
theorem any_walk_predicateWidth {column : Text} (name : IsName column) {found : Site → Bool}
    (words : ∀ site : Site, site.afterIdentifier = true → found site = false)
    {back rest : Text} {offset depth skip jump : Nat} (state : InStep jump skip back rest) :
    (Site.walk (predicateWidth column) back offset depth jump rest).any found =
      (Site.walk (Site.lexemeWidth .standard) back offset depth skip rest).any found := by
  induction rest generalizing back offset depth skip jump with
  | nil => simp [Site.walk]
  | cons byte rest ih =>
      rcases state with rfl | ⟨rfl, jumps, inside, identifiers⟩
      · cases jump with
        | succ jump =>
            rw [Site.walk, Site.walk]
            exact ih (.inl rfl)
        | zero =>
            simp only [Site.walk, List.any_cons]
            rw [ih (inStep_visit name back byte rest offset depth)]
      · obtain ⟨jump, rfl⟩ : ∃ length, jump = length + 1 := ⟨jump - 1, by omega⟩
        rw [List.take_succ_cons, List.forall_mem_cons] at identifiers
        have silent : found ⟨back, byte :: rest, offset, depth⟩ = false := words _ inside
        have same_depth : Site.depthAfter byte depth = depth := by
          simp [Site.depthAfter, Byte.depthless_of_isIdentifier byte identifiers.1]
        have one : Site.lexemeWidth .standard ⟨back, byte :: rest, offset, depth⟩ = 1 := by
          simp [Site.lexemeWidth, Site.atQuote, Site.byte?,
            Byte.isQuote_of_isIdentifier byte identifiers.1]
        rw [Site.walk]
        simp only [Site.walk, List.any_cons, silent, Bool.false_or, same_depth, one, Nat.sub_self]
        exact ih (inStep_of_word (by simpa using identifiers.1) identifiers.2)

/-- A predicate is found when it stands at some place outside literals before the end of the
range. -/
theorem hasPredicate_iff {column : Text} (name : IsName column) (text : Text) (start stop : Nat) :
    hasPredicate text column start stop = true ↔
      ∃ site ∈ (Site.atOffset text start).code, site.offset < min stop text.length ∧
        isPredicateAt text column.upper start (min stop text.length) site = true := by
  have ordered := Site.pairwise_tour (predicateWidth column.upper) (Site.atOffset text start)
  rw [hasPredicate, takeWhile_offset_lt ordered, List.any_filter, Site.tour,
    any_walk_predicateWidth name.upper (fun site inside => by
      rw [isPredicateAt_inside name.upper inside, Bool.and_false]) (.inl rfl)]
  simp only [List.any_eq_true, Bool.and_eq_true, decide_eq_true_eq, Site.code, Site.lexemes,
    Site.tour, List.mem_filter]
  constructor
  · rintro ⟨site, member, before, found⟩
    have outside : (!site.atQuote) = true := by
      rw [isPredicateAt, Bool.and_assoc, Bool.and_eq_true] at found
      exact found.1
    exact ⟨site, ⟨member, outside⟩, before, found⟩
  · rintro ⟨site, ⟨member, -⟩, before, found⟩
    exact ⟨site, member, before, found⟩

/-! ## Qualified columns -/

/-- A part of a qualified name with the full stop after it: a word, or an identifier between
marks. -/
inductive Qualifier : Text → Prop
  | word {part : Text} : IsName part → Qualifier (part ++ [Byte.dot])
  | quoted {mark : Byte} {content : Text} : TableName.isMark mark = true → mark ∉ content →
      Qualifier (mark :: (content ++ [mark, Byte.dot]))

/-- Bytes before a word do not belong to it. -/
def WordBegins (before text : Text) : Prop :=
  text.head?.any Byte.isIdentifier = true → before.head?.any Byte.isIdentifier = false

theorem dropQualifier?_of_word {part rest : Text} (name : IsName part)
    (begins : rest.head?.any Byte.isIdentifier = false) :
    dropQualifier? ((part ++ [Byte.dot]).reverse ++ rest) = some rest := by
  obtain ⟨first, last, rfl⟩ := (List.eq_nil_or_concat part).resolve_left name.nonempty
  have word : last.isIdentifier = true := name.identifiers last (by simp)
  have not_mark : (last == Byte.quotation || last == Byte.backtick) = false := by
    have table : ∀ byte : Byte, byte.isIdentifier = true →
        (byte == Byte.quotation || byte == Byte.backtick) = false := by
      decide +kernel
    exact table last word
  have dropped : (first.reverse ++ rest).dropWhile Byte.isIdentifier = rest := by
    rw [List.dropWhile_append_of_pos fun byte member =>
      name.identifiers byte (by simpa using .inl (List.mem_reverse.mp member))]
    cases rest with
    | nil => rfl
    | cons byte rest => simpa using begins
  simp [dropQualifier?, not_mark, word, dropped]

theorem dropQualifier?_of_quoted {mark : Byte} {content rest : Text}
    (is_mark : TableName.isMark mark = true) (free : mark ∉ content) :
    dropQualifier? ((mark :: (content ++ [mark, Byte.dot])).reverse ++ rest) = some rest := by
  have found : (content.reverse ++ mark :: rest).dropWhile (· != mark) = mark :: rest := by
    rw [List.dropWhile_append_of_pos fun byte member => by
      simpa using fun same : byte = mark => free (same ▸ List.mem_reverse.mp member)]
    simp
  have is_mark' : (mark == Byte.quotation || mark == Byte.backtick) = true := is_mark
  simp [dropQualifier?, is_mark', found]

theorem exists_of_dropQualifier? {before rest : Text}
    (dropped : dropQualifier? before = some rest) :
    ∃ qualifier, Qualifier qualifier ∧ before = qualifier.reverse ++ rest ∧
      WordBegins rest qualifier := by
  unfold dropQualifier? at dropped
  split at dropped
  · rename_i stop last before
    split at dropped
    · simp at dropped
    · rename_i dot
      obtain rfl : stop = Byte.dot := by simpa using dot
      split at dropped
      · rename_i is_mark
        have content_eq := List.takeWhile_append_dropWhile (p := (· != last)) (l := before)
        split at dropped
        · simp at dropped
        · rename_i mark after found
          obtain rfl : after = rest := by simpa using dropped
          obtain rfl : mark = last := by
            simpa [found] using List.head?_dropWhile_not (· != last) before
          have free : mark ∉ (before.takeWhile (· != mark)).reverse := fun member => by
            simpa using List.mem_takeWhile_imp (List.mem_reverse.mp member)
          refine ⟨_, .quoted is_mark free, ?_, fun word => ?_⟩
          · rw [found] at content_eq
            simp [content_eq]
          · have no_word : ∀ byte : Byte, TableName.isMark byte = true →
                byte.isIdentifier = false := by
              decide +kernel
            simp [no_word mark is_mark] at word
      · split at dropped
        · rename_i word
          obtain rfl : before.dropWhile Byte.isIdentifier = rest := by simpa using dropped
          have content_eq := List.takeWhile_append_dropWhile (p := Byte.isIdentifier) (l := before)
          refine ⟨((before.takeWhile Byte.isIdentifier).reverse ++ [last]) ++ [Byte.dot],
            .word ⟨by simp, fun byte member => ?_⟩, by simp [content_eq], fun _ =>
            Site.head?_dropWhile_isIdentifier before⟩
          rcases List.mem_append.mp member with member | member
          · exact List.mem_takeWhile_imp (List.mem_reverse.mp member)
          · rwa [List.mem_singleton.mp member]
        · simp at dropped
  · simp at dropped

/-- Looking back over one qualifier. -/
theorem dropQualifier?_eq_some {before rest : Text} :
    dropQualifier? before = some rest ↔
      ∃ qualifier, Qualifier qualifier ∧ before = qualifier.reverse ++ rest ∧
        WordBegins rest qualifier := by
  constructor
  · exact exists_of_dropQualifier?
  · rintro ⟨qualifier, is_qualifier, rfl, begins⟩
    cases is_qualifier with
    | quoted is_mark free => exact dropQualifier?_of_quoted is_mark free
    | @word part name =>
        refine dropQualifier?_of_word name (begins ?_)
        obtain ⟨first, rest_part, rfl⟩ := List.exists_cons_of_ne_nil name.nonempty
        simpa using name.identifiers first List.mem_cons_self

/-- What is looked back over are qualifiers. -/
theorem exists_qualifiers (count : Nat) (before : Text) :
    ∃ qualifiers : List Text, (∀ qualifier ∈ qualifiers, Qualifier qualifier) ∧
      before = qualifiers.flatten.reverse ++ dropQualifiers count before := by
  induction count generalizing before with
  | zero => exact ⟨[], by simp, rfl⟩
  | succ count ih =>
      rw [dropQualifiers]
      cases dropped : dropQualifier? before with
      | none => exact ⟨[], by simp, rfl⟩
      | some rest =>
          obtain ⟨qualifier, is_qualifier, rfl, -⟩ := exists_of_dropQualifier? dropped
          obtain ⟨qualifiers, are_qualifiers, rest_eq⟩ := ih rest
          refine ⟨qualifiers ++ [qualifier], ?_, ?_⟩
          · rw [List.forall_mem_append]
            exact ⟨are_qualifiers, by simpa using is_qualifier⟩
          · conv => lhs; rw [rest_eq]
            simp

theorem Qualifier.getLast?_eq {qualifier : Text} (is_qualifier : Qualifier qualifier) :
    qualifier.getLast? = some Byte.dot := by
  cases is_qualifier with
  | word => simp
  | quoted => simp [List.getLast?_cons]

/-- Qualifiers end in a full stop. -/
theorem head?_flatten_reverse {qualifiers : List Text}
    (are_qualifiers : ∀ qualifier ∈ qualifiers, Qualifier qualifier)
    (some_qualifier : qualifiers ≠ []) (rest : Text) :
    (qualifiers.flatten.reverse ++ rest).head? = some Byte.dot := by
  obtain ⟨first, last, rfl⟩ := (List.eq_nil_or_concat qualifiers).resolve_left some_qualifier
  have last_dot := (are_qualifiers last (by simp)).getLast?_eq
  rw [List.getLast?_eq_head?_reverse] at last_dot
  simp [List.head?_append, last_dot]

/-- Qualifiers are looked back over down to bytes that neither end in another one nor run
into the first one. -/
theorem dropQualifiers_append {qualifiers : List Text}
    (are_qualifiers : ∀ qualifier ∈ qualifiers, Qualifier qualifier) {count : Nat} {rest : Text}
    (enough : qualifiers.flatten.length + rest.length ≤ count)
    (stops : dropQualifier? rest = none) (begins : WordBegins rest qualifiers.flatten) :
    dropQualifiers count (qualifiers.flatten.reverse ++ rest) = rest := by
  induction qualifiers using List.reverseRecOn generalizing count with
  | nil =>
      cases count with
      | zero => rfl
      | succ count => simp [dropQualifiers, stops]
  | append_singleton qualifiers qualifier ih =>
      rw [List.forall_mem_append] at are_qualifiers
      have is_qualifier := are_qualifiers.2 qualifier (by simp)
      have longer : 0 < qualifier.length := by cases is_qualifier <;> simp
      rw [List.flatten_append, List.flatten_singleton, List.length_append] at enough
      obtain ⟨count, rfl⟩ : ∃ fewer, count = fewer + 1 := ⟨count - 1, by omega⟩
      have split : (qualifiers ++ [qualifier]).flatten.reverse ++ rest =
          qualifier.reverse ++ (qualifiers.flatten.reverse ++ rest) := by simp
      -- The word of a qualifier begins after a full stop or at the bytes before all of them.
      have both : WordBegins (qualifiers.flatten.reverse ++ rest) qualifier ∧
          WordBegins rest qualifiers.flatten := by
        by_cases first : qualifiers = []
        · subst first
          exact ⟨by simpa using begins, fun word => by simp at word⟩
        · have dotted := head?_flatten_reverse are_qualifiers.1 first
          have flatten_ne : qualifiers.flatten ≠ [] := fun empty => by
            simpa [empty] using dotted []
          constructor
          · intro _
            rw [dotted]
            decide
          · intro word
            refine begins ?_
            rwa [List.flatten_append, List.head?_append_of_ne_nil _ flatten_ne]
      rw [split, dropQualifiers, dropQualifier?_eq_some.mpr ⟨qualifier, is_qualifier, rfl, both.1⟩]
      exact ih are_qualifiers.1 (by omega) both.2

/-! ## Terms -/

/-- What introduces a term of a condition. -/
inductive Introduction
  /-- The range of the search begins with the term. -/
  | opening
  /-- It follows a `WHERE`. -/
  | filter
  /-- It follows an `AND`. -/
  | conjunction
  deriving DecidableEq, Repr

/-- The introduction ends at an offset of a text that is searched from `start`. -/
def Introduction.EndsAt (text : Text) (start offset : Nat) : Introduction → Prop
  | opening => offset = start
  | filter => Word.endsAt (ascii "WHERE") text offset = true
  | conjunction => Word.endsAt (ascii "AND") text offset = true

/-- At a place outside literals and parentheses a term begins with the column, perhaps qualified,
and an equals sign; its introduction ends at the offset. -/
structure IsTerm (text column : Text) (start stop : Nat) (introduction : Introduction)
    (offset : Nat) (site : Site) : Prop where
  code : site ∈ (Site.atOffset text start).code
  outermost : site.depth = 0
  named : site.spoken = column.upper
  compared : site.equalsBefore stop column.length = true
  introduced : introduction.EndsAt text start offset
  inside : start ≤ offset ∧ offset ≤ site.offset
  qualified : ∃ (gap : Text) (qualifiers : List Text), (∀ byte ∈ gap, byte.isSpace = true) ∧
    (∀ qualifier ∈ qualifiers, Qualifier qualifier) ∧
    Statement.slice text offset site.offset = gap ++ qualifiers.flatten

theorem IsTerm.offset_lt {text column : Text} {start stop : Nat} {introduction : Introduction}
    {offset : Nat} {site : Site} (term : IsTerm text column start stop introduction offset site) :
    site.offset < stop := by
  have compared := term.compared
  simp only [Site.equalsBefore, Bool.and_eq_true, decide_eq_true_eq] at compared
  omega

/-- A place of a range is that of its offset. -/
theorem of_mem_code_atOffset {text : Text} {start : Nat} {site : Site}
    (member : site ∈ (Site.atOffset text start).code) :
    start ≤ site.offset ∧ site.back = (text.take site.offset).reverse ∧
      site.rest = text.drop site.offset := by
  have walked := (List.mem_filter.mp member).1
  have whole := Site.back_rest_of_mem_walk walked
  have counted := Site.offset_of_mem_walk walked
  have le := Site.le_offset_of_mem_walk walked
  have within : start ≤ text.length := by
    by_contra beyond
    rw [Site.atOffset, List.drop_eq_nil_of_le (by omega : text.length ≤ start), Site.code_nil]
      at member
    simp at member
  simp only [Site.atOffset, List.reverse_reverse, List.take_append_drop, List.length_reverse,
    List.length_take, Nat.min_eq_left within] at whole counted le
  have offset_eq : site.offset = site.back.reverse.length := by
    rw [List.length_reverse]
    omega
  refine ⟨le, ?_, ?_⟩
  · rw [offset_eq, ← whole, List.take_left, List.reverse_reverse]
  · rw [offset_eq, ← whole, List.drop_left]

theorem lt_length_of_mem_code_atOffset {text : Text} {start : Nat} {site : Site}
    (member : site ∈ (Site.atOffset text start).code) : site.offset < text.length := by
  obtain ⟨-, -, rest_eq⟩ := of_mem_code_atOffset member
  by_contra beyond
  exact Site.rest_ne_nil_of_mem_walk (List.mem_filter.mp member).1
    (rest_eq.trans (List.drop_eq_nil_of_le (Nat.le_of_not_lt beyond)))

/-- The bytes of the range before a place, nearest first. -/
theorem take_back_of_mem_code {text : Text} {start : Nat} {site : Site}
    (member : site ∈ (Site.atOffset text start).code) :
    site.back.take (site.offset - start) = (Statement.slice text start site.offset).reverse := by
  obtain ⟨le, back_eq, -⟩ := of_mem_code_atOffset member
  have within := (lt_length_of_mem_code_atOffset member).le
  rw [back_eq, List.take_reverse, List.length_take, Nat.min_eq_left within, List.drop_take,
    Statement.slice, Nat.sub_sub_self le]

/-- A name that ends at an offset is a whole word before it. -/
theorem endsAt_iff {name text : Text} {offset : Nat} (is_name : IsName name) :
    Word.endsAt name text offset = true ↔
      name.length ≤ offset ∧ (Site.atOffset text (offset - name.length)).spoken = name := by
  rw [Word.endsAt, Site.word?_of_isName is_name]
  simp only [Bool.and_eq_true, decide_eq_true_eq, beq_iff_eq, ite_eq_left_iff, reduceCtorEq,
    imp_false, not_not]

theorem exists_of_endsAt {name text : Text} {offset : Nat} (is_name : IsName name)
    (ends : Word.endsAt name text offset = true) :
    ∃ before written, text.take offset = before ++ written ∧ upper written = name ∧
      (text.drop offset).head?.any Byte.isIdentifier = false := by
  obtain ⟨fits, spoken_eq⟩ := (endsAt_iff is_name).mp ends
  obtain ⟨place, rfl⟩ : ∃ place, offset = place + name.length :=
    ⟨offset - name.length, by omega⟩
  rw [Nat.add_sub_cancel] at spoken_eq
  have begins := (Site.exists_of_spoken_ne (spoken_eq ▸ is_name.nonempty)).1
  rw [Site.spoken, begins, if_neg (by simp)] at spoken_eq
  have split : (text.drop place).takeWhile Byte.isIdentifier ++
      (text.drop place).dropWhile Byte.isIdentifier = text.drop place :=
    List.takeWhile_append_dropWhile
  have length_eq : ((text.drop place).takeWhile Byte.isIdentifier).length = name.length := by
    rw [← length_upper]
    exact congrArg List.length spoken_eq
  have ends := Site.head?_dropWhile_isIdentifier (text.drop place)
  refine ⟨text.take place, (text.drop place).takeWhile Byte.isIdentifier, ?_, spoken_eq, ?_⟩
  · rw [List.take_add, ← length_eq, ← List.prefix_iff_eq_take.mp (List.takeWhile_prefix _)]
  · have after := congrArg (List.drop name.length) split
    rw [List.drop_left' length_eq, List.drop_drop] at after
    rwa [← after]

/-- Where an introduction ends, neither white space nor a qualifier of the column ends,
and no word goes on. -/
theorem Introduction.EndsAt.stops {text : Text} {start offset : Nat} {introduction : Introduction}
    (ends : introduction.EndsAt text start offset) :
    Statement.slice text start offset = [] ∨
      (∃ before last, Statement.slice text start offset = before ++ [last] ∧
        last.isIdentifier = true) ∧
      (text.drop offset).head?.any Byte.isIdentifier = false := by
  have of_keyword {name : Text} (is_name : IsName name)
      (keyword_ends : Word.endsAt name text offset = true) :
      Statement.slice text start offset = [] ∨
        (∃ before last, Statement.slice text start offset = before ++ [last] ∧
          last.isIdentifier = true) ∧
        (text.drop offset).head?.any Byte.isIdentifier = false := by
    obtain ⟨before, written, take_eq, name_eq, after⟩ := exists_of_endsAt is_name keyword_ends
    refine (List.eq_nil_or_concat _).imp_right fun ⟨first, last, slice_eq⟩ =>
      ⟨⟨first, last, by simpa using slice_eq, ?_⟩, after⟩
    have written_ne : written ≠ [] :=
      fun empty => is_name.nonempty (by simp [← name_eq, empty, upper])
    have last_eq : (Statement.slice text start offset).getLast? = some last := by simp [slice_eq]
    rw [Statement.slice, ← List.drop_take, take_eq, List.getLast?_drop] at last_eq
    split at last_eq
    · simp at last_eq
    · rw [List.getLast?_append_of_ne_nil _ written_ne] at last_eq
      exact Site.isIdentifier_of_upper_eq is_name.identifiers name_eq last
        (List.mem_of_getLast? last_eq)
  cases introduction with
  | opening =>
      left
      rw [show offset = start from ends, Statement.slice, Nat.sub_self, List.take_zero]
  | filter => exact of_keyword (by decide +kernel) ends
  | conjunction => exact of_keyword (by decide +kernel) ends

theorem isPredicateAt_eq {column : Text} (name : IsName column) {text : Text} {start stop : Nat}
    {site : Site} (outside : site.atQuote = false) :
    isPredicateAt text column.upper start stop site = true ↔
      site.depth = 0 ∧ site.spoken = column.upper ∧
        site.equalsBefore stop column.length = true ∧
        beginsTerm text start (dropQualifiers (site.back.take (site.offset - start)).length
          (site.back.take (site.offset - start))) = true := by
  rw [isPredicateAt, Site.word?_of_isName name.upper, outside]
  by_cases named : site.spoken = column.upper
  · have not_paren := Site.not_atParen_of_spoken_ne (named ▸ name.upper.nonempty)
    simp [named, Site.isTopLevel, not_paren]
  · simp [named]

theorem dropQualifier?_of_undotted {before : Text} (undotted : before.head? ≠ some Byte.dot) :
    dropQualifier? before = none := by
  cases dropped : dropQualifier? before with
  | none => rfl
  | some rest =>
      obtain ⟨qualifier, is_qualifier, rfl, -⟩ := exists_of_dropQualifier? dropped
      have dotted := is_qualifier.getLast?_eq
      rw [List.getLast?_eq_head?_reverse] at dotted
      exact absurd (by simp [List.head?_append, dotted]) undotted

/-- Before white space and qualifiers the bytes of an introduction are neither. -/
theorem strip_of_stops {lead gap names rest after : Text}
    (blank : ∀ byte ∈ gap, byte.isSpace = true)
    (stops : lead = [] ∨ (∃ before last, lead = before ++ [last] ∧ last.isIdentifier = true) ∧
      after.head?.any Byte.isIdentifier = false)
    (after_eq : after = gap ++ (names ++ rest)) :
    (gap.reverse ++ lead.reverse).head? ≠ some Byte.dot ∧
      WordBegins (gap.reverse ++ lead.reverse) names ∧
      (gap.reverse ++ lead.reverse).dropWhile Byte.isSpace = lead.reverse := by
  have lead_kept : lead.reverse.dropWhile Byte.isSpace = lead.reverse := by
    rcases stops with rfl | ⟨⟨before, last, rfl, word⟩, -⟩
    · rfl
    · have not_space : last.isSpace = false := by
        cases space : last.isSpace with
        | false => rfl
        | true => simp [Byte.isIdentifier_of_isSpace last space] at word
      simp [not_space]
  have stripped : (gap.reverse ++ lead.reverse).dropWhile Byte.isSpace = lead.reverse := by
    rw [List.dropWhile_append_of_pos (by simpa using blank), lead_kept]
  rcases List.eq_nil_or_concat gap with rfl | ⟨gap, byte, rfl⟩
  · rcases stops with rfl | ⟨⟨before, last, rfl, word⟩, ends⟩
    · exact ⟨by simp, fun _ => rfl, rfl⟩
    · refine ⟨?_, fun begins => ?_, stripped⟩
      · have not_dot : last ≠ Byte.dot := by
          rintro rfl
          exact absurd word (by decide)
        simpa using not_dot
      · rw [after_eq, List.nil_append] at ends
        cases names with
        | nil => simp at begins
        | cons first names =>
            have first_word : first.isIdentifier = true := by simpa using begins
            simp [first_word] at ends
  · have space : byte.isSpace = true := blank byte (by simp)
    refine ⟨?_, fun _ => ?_, stripped⟩
    · have not_dot : byte ≠ Byte.dot := by
        rintro rfl
        exact absurd space (by decide)
      simpa using not_dot
    · simpa using Byte.isIdentifier_of_isSpace byte space

/-- A term begins where an introduction ends before the white space. -/
theorem beginsTerm_iff_endsAt (text : Text) (start : Nat) (before : Text) :
    beginsTerm text start before = true ↔ ∃ introduction : Introduction,
      introduction.EndsAt text start (start + (before.dropWhile Byte.isSpace).length) := by
  simp only [beginsTerm, Bool.or_eq_true, or_assoc]
  constructor
  · rintro (nothing | conjunction | filter)
    · exact ⟨.opening, by simp [Introduction.EndsAt, List.isEmpty_iff.mp nothing]⟩
    · exact ⟨.conjunction, conjunction⟩
    · exact ⟨.filter, filter⟩
  · rintro ⟨introduction, ends⟩
    cases introduction with
    | opening => exact .inl (List.isEmpty_iff_length_eq_zero.mpr (Nat.add_eq_left.mp ends))
    | conjunction => exact .inr (.inl ends)
    | filter => exact .inr (.inr ends)

/-- A term begins after bytes of the range when an introduction, white space and
qualifiers make them up. -/
theorem beginsTerm_iff {text : Text} {start stop : Nat} (le : start ≤ stop)
    (within : stop ≤ text.length) :
    beginsTerm text start (dropQualifiers (Statement.slice text start stop).reverse.length
        (Statement.slice text start stop).reverse) = true ↔
      ∃ (introduction : Introduction) (offset : Nat) (gap : Text) (qualifiers : List Text),
        introduction.EndsAt text start offset ∧ (start ≤ offset ∧ offset ≤ stop) ∧
        (∀ byte ∈ gap, byte.isSpace = true) ∧
        (∀ qualifier ∈ qualifiers, Qualifier qualifier) ∧
        Statement.slice text offset stop = gap ++ qualifiers.flatten := by
  rw [beginsTerm_iff_endsAt]
  constructor
  · rintro ⟨introduction, ends⟩
    obtain ⟨qualifiers, are_qualifiers, split⟩ := exists_qualifiers
      (Statement.slice text start stop).reverse.length (Statement.slice text start stop).reverse
    generalize dropQualifiers (Statement.slice text start stop).reverse.length
      (Statement.slice text start stop).reverse = stripped at ends split
    have slice_eq : Statement.slice text start stop =
        (stripped.dropWhile Byte.isSpace).reverse ++
          ((stripped.takeWhile Byte.isSpace).reverse ++ qualifiers.flatten) := by
      rw [← List.append_assoc, ← List.reverse_append, List.takeWhile_append_dropWhile]
      simpa using congrArg List.reverse split
    have bound : (stripped.dropWhile Byte.isSpace).length ≤ stop - start := by
      rw [← Statement.length_slice within start, slice_eq]
      simp
    have rest_eq := Statement.slice_of_append slice_eq
    rw [List.length_reverse] at rest_eq
    exact ⟨introduction, _, _, qualifiers, ends, ⟨by omega, by omega⟩,
      fun byte member => List.mem_takeWhile_imp (List.mem_reverse.mp member), are_qualifiers,
      rest_eq⟩
  · rintro ⟨introduction, offset, gap, qualifiers, ends, ⟨from_start, before_stop⟩, blank,
      are_qualifiers, rest_eq⟩
    have split : (Statement.slice text start stop).reverse = qualifiers.flatten.reverse ++
        (gap.reverse ++ (Statement.slice text start offset).reverse) := by
      rw [← Statement.slice_append from_start before_stop, rest_eq]
      simp
    have after : text.drop offset = gap ++ (qualifiers.flatten ++ text.drop stop) := by
      rw [← List.append_assoc, ← rest_eq, Statement.slice_append_drop before_stop]
    obtain ⟨undotted, word_begins, spoken_eq⟩ := strip_of_stops blank ends.stops after
    refine ⟨introduction, ?_⟩
    rwa [split, dropQualifiers_append are_qualifiers (by simp)
      (dropQualifier?_of_undotted undotted) word_begins, spoken_eq, List.length_reverse,
      Statement.length_slice (before_stop.trans within), Nat.add_sub_cancel' from_start]

/-- A place is accepted as a condition on the column exactly when a term stands there. -/
theorem isPredicateAt_iff {column : Text} (name : IsName column) {text : Text} {start stop : Nat}
    {site : Site} (member : site ∈ (Site.atOffset text start).code) :
    isPredicateAt text column.upper start stop site = true ↔
      ∃ introduction offset, IsTerm text column start stop introduction offset site := by
  have outside : site.atQuote = false := by simpa using (List.mem_filter.mp member).2
  have le := (of_mem_code_atOffset member).1
  have within := (lt_length_of_mem_code_atOffset member).le
  rw [isPredicateAt_eq name outside, take_back_of_mem_code member]
  constructor
  · rintro ⟨outermost, named, compared, begins⟩
    obtain ⟨introduction, offset, gap, qualifiers, ends, inside, blank, are_qualifiers, split⟩ :=
      (beginsTerm_iff le within).mp begins
    exact ⟨introduction, offset, member, outermost, named, compared, ends, inside, gap, qualifiers,
      blank, are_qualifiers, split⟩
  · rintro ⟨introduction, offset, term⟩
    obtain ⟨gap, qualifiers, blank, are_qualifiers, split⟩ := term.qualified
    exact ⟨term.outermost, term.named, term.compared,
      (beginsTerm_iff le within).mpr ⟨introduction, offset, gap, qualifiers,
        term.introduced, term.inside, blank, are_qualifiers, split⟩⟩

/-- A range is accepted exactly when it holds a term. -/
theorem hasPredicate_iff_exists_term {column : Text} (name : IsName column) (text : Text)
    (start stop : Nat) :
    hasPredicate text column start stop = true ↔ ∃ introduction offset site,
      IsTerm text column start (min stop text.length) introduction offset site := by
  rw [hasPredicate_iff name]
  constructor
  · rintro ⟨site, member, -, found⟩
    obtain ⟨introduction, offset, term⟩ := (isPredicateAt_iff name member).mp found
    exact ⟨introduction, offset, site, term⟩
  · rintro ⟨introduction, offset, site, term⟩
    exact ⟨site, term.code, term.offset_lt,
      (isPredicateAt_iff name term.code).mpr ⟨introduction, offset, term⟩⟩

/-! ## Terms of a conjunction -/

/-- Constructs that have begun outside parentheses and not yet ended. -/
structure Pending where
  /-- Number of `CASE` whose `END` has not come. -/
  cases : Nat
  /-- Number of `BETWEEN` outside `CASE ... END` whose `AND` has not come. -/
  ranges : Nat
  deriving DecidableEq, Repr

/-- What is pending after one more place. -/
def Pending.after (pending : Pending) (site : Site) : Pending :=
  if !Repair.mayBeginKeyword site then pending
  else if site.hasWord (ascii "CASE") then { pending with cases := pending.cases + 1 }
  else if site.hasWord (ascii "END") then { pending with cases := pending.cases - 1 }
  else if pending.cases != 0 then pending
  else if site.hasWord (ascii "BETWEEN") then { pending with ranges := pending.ranges + 1 }
  else if site.hasWord (ascii "AND") then { pending with ranges := pending.ranges - 1 }
  else pending

/-- What is pending at an offset of a range that begins at `start`. -/
def pendingAt (text : Text) (start offset : Nat) : Pending :=
  (Repair.codeBetween text start offset).foldl Pending.after ⟨0, 0⟩

/-- A term is one of the outermost conjunction: it lies in no `CASE ... END`, and an `AND` before it
does not complete a `BETWEEN`. -/
def Joined (text : Text) (start : Nat) (introduction : Introduction) (offset : Nat) (site : Site) :
    Prop :=
  (pendingAt text start site.offset).cases = 0 ∧
    (introduction = .conjunction →
      (pendingAt text start (offset - (ascii "AND").length)).ranges = 0)

/-- The range holds a term of its outermost conjunction. -/
def HoldsConjunct (text column : Text) (start stop : Nat) : Prop :=
  ∃ introduction offset site, IsTerm text column start stop introduction offset site ∧
    Joined text start introduction offset site

/-- The range holds a term that belongs to a `CASE ... END` or to a `BETWEEN`. -/
def HoldsMisread (text column : Text) (start stop : Nat) : Prop :=
  ∃ introduction offset site, IsTerm text column start stop introduction offset site ∧
    ¬ Joined text start introduction offset site

/-- A term is one of the outermost conjunction or a misread one. -/
theorem holds_iff_exists_term {text column : Text} {start stop : Nat} :
    HoldsConjunct text column start stop ∨ HoldsMisread text column start stop ↔
      ∃ introduction offset site, IsTerm text column start stop introduction offset site := by
  constructor
  · rintro (⟨introduction, offset, site, term, -⟩ | ⟨introduction, offset, site, term, -⟩)
    · exact ⟨introduction, offset, site, term⟩
    · exact ⟨introduction, offset, site, term⟩
  · rintro ⟨introduction, offset, site, term⟩
    by_cases joined : Joined text start introduction offset site
    · exact .inl ⟨introduction, offset, site, term, joined⟩
    · exact .inr ⟨introduction, offset, site, term, joined⟩

/-- Neither a `CASE` nor a `BETWEEN` begins in the range outside parentheses. -/
def Straight (text : Text) (start stop : Nat) : Prop :=
  ∀ site ∈ Repair.codeBetween text start stop, Repair.mayBeginKeyword site = true →
    site.hasWord (ascii "CASE") = false ∧ site.hasWord (ascii "BETWEEN") = false

instance (text : Text) (start stop : Nat) : Decidable (Straight text start stop) :=
  inferInstanceAs (Decidable (∀ _ ∈ _, _ → _))

theorem pendingAt_of_straight {text : Text} {start stop offset : Nat}
    (straight : Straight text start stop) (before : offset ≤ stop) :
    pendingAt text start offset = ⟨0, 0⟩ := by
  have nothing (sites : List Site) (plain : ∀ site ∈ sites, Repair.mayBeginKeyword site = true →
      site.hasWord (ascii "CASE") = false ∧ site.hasWord (ascii "BETWEEN") = false) :
      sites.foldl Pending.after ⟨0, 0⟩ = ⟨0, 0⟩ := by
    induction sites with
    | nil => rfl
    | cons site sites ih =>
        rw [List.forall_mem_cons] at plain
        have step : Pending.after ⟨0, 0⟩ site = ⟨0, 0⟩ := by
          unfold Pending.after
          cases begins : Repair.mayBeginKeyword site with
          | false => rfl
          | true => simp [plain.1 begins]
        rw [List.foldl_cons, step, ih plain.2]
  refine nothing _ fun site member => straight site ?_
  have ordered := Site.pairwise_code (Site.atOffset text start)
  rw [Repair.codeBetween, takeWhile_offset_lt ordered] at member ⊢
  obtain ⟨place, place_before⟩ := List.mem_filter.mp member
  refine List.mem_filter.mpr ⟨place, ?_⟩
  simp only [decide_eq_true_eq] at place_before ⊢
  omega

/-- A range without `CASE` and `BETWEEN` holds no misread term. -/
theorem not_holdsMisread_of_straight {text column : Text} {start stop : Nat}
    (straight : Straight text start stop) : ¬ HoldsMisread text column start stop := by
  rintro ⟨introduction, offset, site, term, misread⟩
  have site_before := term.offset_lt
  have offset_before := term.inside
  refine misread ⟨?_, fun _ => ?_⟩
  · rw [pendingAt_of_straight straight (by omega)]
  · rw [pendingAt_of_straight straight (by omega)]

/-! ## What is pending, counted -/

/-- A keyword may begin at the place and is spelled there. -/
def speaks (keyword : Text) (site : Site) : Bool :=
  Repair.mayBeginKeyword site && site.hasWord keyword

/-- Some last places of a list have more words that open something than words that close it. -/
def StaysOpen (opens closes : Text) (sites : List Site) : Prop :=
  ∃ later ∈ sites.tails, later.countP (speaks closes) < later.countP (speaks opens)

instance (opens closes : Text) (sites : List Site) : Decidable (StaysOpen opens closes sites) :=
  inferInstanceAs (Decidable (∃ _ ∈ _, _))

/-- An offset of a range that begins at `start` lies within `CASE ... END`. -/
def InCase (text : Text) (start offset : Nat) : Prop :=
  StaysOpen (ascii "CASE") (ascii "END") (Repair.codeBetween text start offset)

instance (text : Text) (start offset : Nat) : Decidable (InCase text start offset) :=
  inferInstanceAs (Decidable (StaysOpen _ _ _))

/-- At an offset of a range that begins at `start`, a `BETWEEN` outside `CASE ... END`
waits for its `AND`. -/
def InBetween (text : Text) (start offset : Nat) : Prop :=
  StaysOpen (ascii "BETWEEN") (ascii "AND")
    ((Repair.codeBetween text start offset).filter fun site => ¬ InCase text start site.offset)

/-- The number of what is open after one more place. -/
def tally (opens closes : Text) (count : Nat) (site : Site) : Nat :=
  if speaks opens site then count + 1 else if speaks closes site then count - 1 else count

/-- Two words are not said at one place. -/
theorem speaks_eq_false {name other : Text} (is_name : IsName name) (is_other : IsName other)
    (differ : name ≠ other) {site : Site} (said : speaks name site = true) :
    speaks other site = false := by
  rw [speaks, Bool.and_eq_true, Site.hasWord_of_isName is_name] at said
  rw [speaks, Bool.and_eq_false_iff]
  refine .inr (Bool.eq_false_iff.mpr fun occurs => differ ?_)
  exact said.2.symm.trans ((Site.hasWord_of_isName is_other site).mp occurs)

/-- The tally exceeds a number exactly when by that number more opens than closes
in some last places. -/
theorem lt_tally_iff {opens closes : Text} (is_name : IsName opens) (is_other : IsName closes)
    (differ : opens ≠ closes) (sites : List Site) (excess : Nat) :
    excess < sites.foldl (tally opens closes) 0 ↔
      ∃ later ∈ sites.tails,
        later.countP (speaks closes) + excess < later.countP (speaks opens) := by
  -- One more place at the end is added to every last part, so the sum of each changes alike; what
  -- it closes is made up for by a greater excess.
  induction sites using List.reverseRecOn generalizing excess with
  | nil => simp
  | append_singleton sites site ih =>
      have last (fits : List Site → Prop) : (∃ later ∈ (sites ++ [site]).tails, fits later) ↔
          fits [] ∨ ∃ later ∈ sites.tails, fits (later ++ [site]) := by
        simp [List.tails_append, or_and_right, exists_or, or_comm]
      rw [List.foldl_concat, last, tally]
      simp only [List.countP_nil, List.countP_append, List.countP_singleton]
      cases opened : speaks opens site with
      | true =>
          simp only [speaks_eq_false is_name is_other differ opened, if_true, Bool.false_eq_true,
            if_false]
          cases excess with
          | zero => exact ⟨fun _ => .inr ⟨[], by simp, by simp⟩, fun _ => Nat.succ_pos _⟩
          | succ excess =>
              rw [Nat.succ_lt_succ_iff, ih excess]
              simp only [Nat.not_lt_zero, false_or, Nat.add_zero, ← Nat.add_assoc,
                Nat.succ_lt_succ_iff]
      | false =>
          cases closed : speaks closes site with
          | true =>
              have lower : excess < sites.foldl (tally opens closes) 0 - 1 ↔
                  excess + 1 < sites.foldl (tally opens closes) 0 := by omega
              simp only [if_true, Bool.false_eq_true, if_false, lower, ih, Nat.not_lt_zero,
                false_or, Nat.add_zero, Nat.add_right_comm, ← Nat.add_assoc]
          | false =>
              simp only [Bool.false_eq_true, if_false, ih, Nat.not_lt_zero, false_or, Nat.add_zero]

/-- `CASE` and `END` count everywhere, `BETWEEN` and `AND` outside `CASE ... END`. -/
theorem Pending.after_eq (pending : Pending) (site : Site) :
    pending.after site = ⟨tally (ascii "CASE") (ascii "END") pending.cases site,
      if pending.cases = 0 then tally (ascii "BETWEEN") (ascii "AND") pending.ranges site
      else pending.ranges⟩ := by
  obtain ⟨cases, ranges⟩ := pending
  have unmoved {keyword : Text} (is_keyword : IsName keyword)
      (other : keyword ≠ ascii "BETWEEN" ∧ keyword ≠ ascii "AND")
      (spoken : speaks keyword site = true) :
      tally (ascii "BETWEEN") (ascii "AND") ranges site = ranges := by
    have not_between := speaks_eq_false is_keyword (by decide +kernel) other.1 spoken
    have not_and := speaks_eq_false is_keyword (by decide +kernel) other.2 spoken
    simp [tally, not_between, not_and]
  have of_case := @unmoved (ascii "CASE") (by decide +kernel) (by decide +kernel)
  have of_end := @unmoved (ascii "END") (by decide +kernel) (by decide +kernel)
  unfold Pending.after
  cases begins : Repair.mayBeginKeyword site with
  | false => simp [tally, speaks, begins]
  | true =>
      have spelled (keyword : Text) : site.hasWord keyword = speaks keyword site := by
        simp [speaks, begins]
      simp only [spelled, Bool.not_true, Bool.false_eq_true, if_false]
      cases opened : speaks (ascii "CASE") site with
      | true =>
          rw [of_case opened]
          simp [tally, opened]
      | false =>
          cases closed : speaks (ascii "END") site with
          | true =>
              rw [of_end closed]
              simp [tally, opened, closed]
          | false =>
              cases cases with
              | zero =>
                  simp only [tally, opened, closed]
                  grind
              | succ more => simp [tally, opened, closed]

/-- Of the places of a range, those before one of them come before its offset. -/
theorem codeBetween_of_split {text : Text} {start : Nat} {site : Site} {before after : List Site}
    (split : (Site.atOffset text start).code = before ++ site :: after) :
    Repair.codeBetween text start site.offset = before := by
  have ordered := Site.pairwise_code (Site.atOffset text start)
  rw [split, List.pairwise_append] at ordered
  rw [Repair.codeBetween, split, List.takeWhile_append_of_pos]
  · simp
  · intro place member
    simpa using ordered.2.2 place member site List.mem_cons_self

/-- What is pending behind some first places of a range. -/
theorem foldl_after {text : Text} {start : Nat} (sites : List Site) :
    ∀ rest, (Site.atOffset text start).code = sites ++ rest →
      sites.foldl Pending.after ⟨0, 0⟩ = ⟨sites.foldl (tally (ascii "CASE") (ascii "END")) 0,
        (sites.filter fun site => ¬ InCase text start site.offset).foldl
          (tally (ascii "BETWEEN") (ascii "AND")) 0⟩ := by
  -- Whether a place lies within `CASE ... END` depends on the places before it, which the induction
  -- has already seen.
  induction sites using List.reverseRecOn with
  | nil => exact fun _ _ => rfl
  | append_singleton sites site ih =>
      intro rest split
      rw [List.append_assoc, List.singleton_append] at split
      have in_case_iff : InCase text start site.offset ↔
          sites.foldl (tally (ascii "CASE") (ascii "END")) 0 ≠ 0 := by
        rw [InCase, codeBetween_of_split split, StaysOpen, ← Nat.pos_iff_ne_zero,
          lt_tally_iff (by decide +kernel) (by decide +kernel) (by decide +kernel)]
        rfl
      rw [List.foldl_concat, ih _ split, Pending.after_eq, List.foldl_concat, List.filter_append,
        List.foldl_append]
      by_cases outside : sites.foldl (tally (ascii "CASE") (ascii "END")) 0 = 0
      · simp [in_case_iff, outside]
      · simp [in_case_iff, outside]

/-- A term is one of the outermost conjunction exactly when no `CASE` before it waits for its `END`
and, if an `AND` introduces it, no `BETWEEN` before that waits for its `AND`. -/
theorem joined_iff {text : Text} {start offset : Nat} {introduction : Introduction} {site : Site} :
    Joined text start introduction offset site ↔
      ¬ InCase text start site.offset ∧
        (introduction = .conjunction →
          ¬ InBetween text start (offset - (ascii "AND").length)) := by
  have pending_eq (stop : Nat) : pendingAt text start stop =
      ⟨(Repair.codeBetween text start stop).foldl (tally (ascii "CASE") (ascii "END")) 0,
        ((Repair.codeBetween text start stop).filter
          fun site => ¬ InCase text start site.offset).foldl
            (tally (ascii "BETWEEN") (ascii "AND")) 0⟩ :=
    foldl_after _ _ (List.takeWhile_append_dropWhile).symm
  have waits_iff {opens closes : Text} (is_name : IsName opens) (is_other : IsName closes)
      (differ : opens ≠ closes) (sites : List Site) :
      sites.foldl (tally opens closes) 0 = 0 ↔ ¬ StaysOpen opens closes sites := by
    rw [← Nat.le_zero, ← Nat.not_lt, lt_tally_iff is_name is_other differ]
    rfl
  rw [Joined, pending_eq, pending_eq,
    waits_iff (by decide +kernel) (by decide +kernel) (by decide +kernel),
    waits_iff (by decide +kernel) (by decide +kernel) (by decide +kernel)]
  rfl

/-- The search accepts a range exactly when it holds a term, one of the outermost conjunction
or a misread one.  A term is one of the outermost conjunction when no `CASE` before it waits
for its `END`, and no `BETWEEN` before its `AND` waits for that; a range without these words
holds no misread term.  A statement is left as it is only when its condition has no
alternatives and holds a term. -/
theorem terms_of_hasPredicate {column : Text} (name : IsName column) (text : Text) :
    (∀ start stop, let stop' := min stop text.length
      (hasPredicate text column start stop = true ↔
        HoldsConjunct text column start stop' ∨ HoldsMisread text column start stop') ∧
      (∀ introduction offset site, Joined text start introduction offset site ↔
        ¬ InCase text start site.offset ∧
          (introduction = .conjunction →
            ¬ InBetween text start (offset - (ascii "AND").length))) ∧
      (Straight text start stop' → ¬ HoldsMisread text column start stop')) ∧
    ∀ source stop, slot? text column (Outline.ofText text) source = .ok none →
      stop = insertionPoint text (Outline.ofText text) source →
      ∃ offset, (Outline.ofText text).find? .filter = some offset ∧
        hasAlternatives text (conditionStart text offset) stop = false ∧
        (HoldsConjunct text column (conditionStart text offset) stop ∨
          HoldsMisread text column (conditionStart text offset) stop) := by
  have accepted (start stop : Nat) : hasPredicate text column start stop = true ↔
      HoldsConjunct text column start (min stop text.length) ∨
        HoldsMisread text column start (min stop text.length) :=
    (hasPredicate_iff_exists_term name text start stop).trans holds_iff_exists_term.symm
  refine ⟨fun start stop => ⟨accepted start stop, fun _ _ _ => joined_iff,
    not_holdsMisread_of_straight⟩, fun source stop unchanged stop_eq => ?_⟩
  subst stop_eq
  rcases slot?_cases unchanged with ⟨-, impossible⟩ | ⟨offset, found, -, scoped_already | changed⟩
  · simp at impossible
  · have terms := (accepted _ _).mp scoped_already.2.1
    rw [Nat.min_eq_left (insertionPoint_le _ _)] at terms
    exact ⟨offset, found, scoped_already.1, terms⟩
  · simp at changed

/-- A condition of two terms, the second of them on the column of a named table. -/
theorem terms_of_hasPredicate_conjunction :
    HoldsConjunct (ascii "a = 1 AND t.tenant_id = 'x'") (ascii "tenant_id") 0 27 := by
  have name : IsName (ascii "tenant_id") := by decide +kernel
  have terms := (terms_of_hasPredicate name (ascii "a = 1 AND t.tenant_id = 'x'")).1 0 27
  exact (terms.1.mp (by decide +kernel)).resolve_right (terms.2.2 (by decide +kernel))

/-- Without a full stop at its end, what is between an introduction and a column is white space. -/
theorem isSpace_of_undotted {between gap : Text} {qualifiers : List Text}
    (blank : ∀ byte ∈ gap, byte.isSpace = true)
    (are_qualifiers : ∀ qualifier ∈ qualifiers, Qualifier qualifier)
    (split : between = gap ++ qualifiers.flatten)
    (undotted : between.getLast? ≠ some Byte.dot) : ∀ byte ∈ between, byte.isSpace = true := by
  by_cases none_there : qualifiers = []
  · simpa [split, none_there] using blank
  · refine absurd ?_ undotted
    rw [split, List.getLast?_eq_head?_reverse, List.reverse_append]
    exact head?_flatten_reverse are_qualifiers none_there gap.reverse

/-- The upper bound of a `BETWEEN` and a condition within a `CASE` are accepted, though neither is a
term of a conjunction. -/
theorem hasPredicate_misread :
    (hasPredicate (ascii "a BETWEEN 1 AND tenant_id = 'x'") (ascii "tenant_id") 0 31 = true ∧
      ¬ HoldsConjunct (ascii "a BETWEEN 1 AND tenant_id = 'x'") (ascii "tenant_id") 0 31) ∧
    hasPredicate (ascii "CASE WHEN a = 1 AND tenant_id = 'x' THEN 1 ELSE 1 END = 1")
        (ascii "tenant_id") 0 57 = true ∧
      ¬ HoldsConjunct (ascii "CASE WHEN a = 1 AND tenant_id = 'x' THEN 1 ELSE 1 END = 1")
        (ascii "tenant_id") 0 57 := by
  refine ⟨⟨by decide +kernel, ?_⟩, by decide +kernel, ?_⟩
  · rintro ⟨introduction, offset, site, term, joined⟩
    have place : ∀ site ∈ (Site.atOffset (ascii "a BETWEEN 1 AND tenant_id = 'x'") 0).code,
        site.spoken = (ascii "tenant_id").upper → site.offset = 16 := by
      decide +kernel
    have offset_eq := place site term.code term.named
    have before := term.inside.2
    rw [offset_eq] at before
    cases introduction with
    | opening =>
        obtain ⟨gap, qualifiers, blank, are_qualifiers, split⟩ := term.qualified
        rw [offset_eq, show offset = 0 from term.introduced] at split
        have first := isSpace_of_undotted blank are_qualifiers split (by decide +kernel)
          (Byte.ofChar 'a') (by decide +kernel)
        exact absurd first (by decide)
    | filter =>
        have no_filter : ∀ offset ≤ 16, Word.endsAt (ascii "WHERE")
            (ascii "a BETWEEN 1 AND tenant_id = 'x'") offset = false := by
          decide +kernel
        have ends : Word.endsAt _ _ _ = true := term.introduced
        rw [no_filter offset before] at ends
        simp at ends
    | conjunction =>
        have completes : ∀ offset ≤ 16, Word.endsAt (ascii "AND")
            (ascii "a BETWEEN 1 AND tenant_id = 'x'") offset = true →
            (pendingAt (ascii "a BETWEEN 1 AND tenant_id = 'x'") 0
              (offset - (ascii "AND").length)).ranges ≠ 0 := by
          decide +kernel
        exact completes offset before term.introduced (joined.2 rfl)
  · rintro ⟨introduction, offset, site, term, joined⟩
    have inside : ∀ site ∈ (Site.atOffset
        (ascii "CASE WHEN a = 1 AND tenant_id = 'x' THEN 1 ELSE 1 END = 1") 0).code,
        site.spoken = (ascii "tenant_id").upper →
        (pendingAt (ascii "CASE WHEN a = 1 AND tenant_id = 'x' THEN 1 ELSE 1 END = 1") 0
          site.offset).cases ≠ 0 := by
      decide +kernel
    exact inside site term.code term.named joined.1

end Scope

end TenantScope
