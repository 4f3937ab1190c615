import TenantScope.Proofs.Regions
import TenantScope.Proofs.Slots

/-!
# How far keywords reach

A keyword is written as one word, or as two with white space between them.  Its last byte belongs to
a word, and no other keyword begins among its bytes.  So the keywords of a text do not overlap, and
none of them reaches behind the body.
-/

namespace TenantScope

open Text Site

theorem Mark.keyword_mem_clause (kind : Clause) : kind.keyword ∈ (clause kind).keywords :=
  List.mem_singleton.mpr rfl

/-- Bytes that spell a keyword. -/
inductive Spelling : Text → Prop
  /-- One word. -/
  | word {written : Text} (name : IsName written) : Spelling written
  /-- Two words with white space between them, the second of which is `BY`. -/
  | phrase {written blanks second : Text} (name : IsName written)
      (blank : ∀ byte ∈ blanks, byte.isSpace = true) (second_eq : upper second = ascii "BY") :
      Spelling (written ++ (blanks ++ second))

namespace Spelling

/-- A keyword that occurs at a place is spelled there. -/
theorem exists_of_word? {mark : Mark} {keyword : Text} (member : keyword ∈ mark.keywords)
    {site : Site} {length : Nat} (found : site.word? keyword = some length) :
    ∃ spelled after, site.rest = spelled ++ after ∧ spelled.length = length ∧ Spelling spelled ∧
      after.head?.any Byte.isIdentifier = false := by
  have occurs : mark.occursAt site = true :=
    List.any_eq_true.mpr ⟨keyword, member, by rw [hasWord, found]; rfl⟩
  obtain ⟨-, first, others, rest_eq, identifier⟩ :=
    exists_of_spoken_ne (Mark.spoken_ne_of_occursAt occurs)
  obtain ⟨written, others, split, name, ends⟩ := exists_leading_word identifier others
  obtain ⟨back, rest, offset, depth⟩ := site
  obtain rfl : rest = written ++ others := rest_eq.trans split
  rcases Scanner.exists_of_word? member name ends found with
    length_eq | ⟨blanks, second, after, rfl, -, blank, second_eq, after_ends, length_eq⟩
  · exact ⟨written, others, rfl, length_eq.symm, .word name, ends⟩
  · refine ⟨_, after, ?_, ?_, .phrase name blank second_eq, after_ends⟩
    · rw [List.append_assoc, List.append_assoc]
    · rw [List.length_append, List.length_append, length_eq]

/-- The last byte of a keyword belongs to a word. -/
theorem exists_last {spelled : Text} (spelling : Spelling spelled) :
    ∃ front last, spelled = front ++ [last] ∧ last.isIdentifier = true := by
  have of_name {written : Text} (name : IsName written) :
      ∃ front last, written = front ++ [last] ∧ last.isIdentifier = true := by
    obtain ⟨front, last, rfl⟩ := (List.eq_nil_or_concat written).resolve_left name.nonempty
    rw [List.concat_eq_append] at name ⊢
    exact ⟨front, last, rfl, name.identifiers last (by simp)⟩
  cases spelling with
  | word name => exact of_name name
  | @phrase written blanks second _ _ second_eq =>
      obtain ⟨front, last, rfl, identifier⟩ := of_name (Scanner.isName_of_upper_by second_eq)
      exact ⟨written ++ (blanks ++ front), last, by simp, identifier⟩

/-- No keyword begins among the bytes of another. -/
theorem ofWord?_inside {spelled front rest after : Text} (spelling : Spelling spelled)
    (split : spelled = front ++ rest) (front_ne : front ≠ [])
    (ends : after.head?.any Byte.isIdentifier = false) (back : Text) (offset depth : Nat) :
    Mark.ofWord? (Site.spoken ⟨front.reverse ++ back, rest ++ after, offset, depth⟩) = none := by
  have wordless : Mark.ofWord? [] = none := by decide +kernel
  obtain ⟨begun, last, rfl⟩ := (List.eq_nil_or_concat front).resolve_left front_ne
  rw [List.concat_eq_append] at split ⊢
  have previous_eq :
      Site.previous? ⟨(begun ++ [last]).reverse ++ back, rest ++ after, offset, depth⟩ =
      some last := by
    simp [previous?]
  by_cases in_word : last.isIdentifier = true
  · rw [spoken, if_pos (by rw [afterIdentifier, previous_eq, Option.any_some, in_word]), wordless]
  -- outside words a place lies in the white space of a phrase or right behind it
  rw [spoken, if_neg (by rw [afterIdentifier, previous_eq, Option.any_some]; exact in_word)]
  cases spelling with
  | word name => exact absurd (name.identifiers last (by simp [split])) in_word
  | @phrase written blanks second name blank second_eq =>
      have is_second := Scanner.isName_of_upper_by second_eq
      rcases List.append_eq_append_iff.mp split with
        ⟨gone, front_eq, later_eq⟩ | ⟨left, written_eq, -⟩
      · obtain ⟨kept, blanks_eq, rest_eq⟩ : ∃ kept, blanks = gone ++ kept ∧
          rest = kept ++ second := by
          rcases List.append_eq_append_iff.mp later_eq with ⟨excess, gone_eq, second_split⟩ | inside
          · obtain rfl : excess = [] := by
              by_contra excess_ne
              have last_eq := congrArg List.getLast? front_eq
              rw [gone_eq, ← List.append_assoc, List.getLast?_append_of_ne_nil _ excess_ne,
                List.getLast?_concat] at last_eq
              have last_mem := List.mem_of_getLast? last_eq.symm
              exact in_word (is_second.identifiers last (by simp [second_split, last_mem]))
            exact ⟨[], by simpa using gone_eq.symm, second_split.symm⟩
          · exact inside
        rw [rest_eq]
        cases kept with
        | nil =>
            rw [List.nil_append, takeWhile_isIdentifier_append is_second.identifiers ends,
              second_eq]
            decide +kernel
        | cons space kept =>
            have space_blank := blank space (by simp [blanks_eq])
            simp [Byte.isIdentifier_of_isSpace space space_blank, upper, wordless]
      · exact absurd (name.identifiers last (by simp [written_eq])) in_word

end Spelling

/-! ## Keywords of a text -/

section Keywords

variable {text keyword : Text} {mark : Mark} {offset length : Nat}
  (member : keyword ∈ mark.keywords)
  (found : (Site.atOffset text offset).word? keyword = some length)

include member found

/-- A keyword ends before any further one begins. -/
theorem word?_le_of_mem_marks {other : MarkAt} (other_mem : other ∈ Outline.marks text)
    (later : offset < other.offset) : offset + length ≤ other.offset := by
  by_contra overlap
  obtain ⟨spelled, after, rest_eq, rfl, spelling, ends⟩ := Spelling.exists_of_word? member found
  obtain ⟨gap, offset_eq⟩ := Nat.exists_eq_add_of_lt later
  have inside : gap + 1 < spelled.length := by omega
  have site_eq : Site.atOffset text other.offset =
      ⟨(spelled.take (gap + 1)).reverse ++ (text.take offset).reverse,
        spelled.drop (gap + 1) ++ after, other.offset, 0⟩ := by
    have drop_eq : text.drop offset = spelled ++ after := rest_eq
    rw [Site.atOffset, ← List.reverse_append, offset_eq, Nat.add_assoc, List.take_add,
      ← List.drop_drop, drop_eq, List.take_append_of_le_length inside.le,
      List.drop_append_of_le_length inside.le]
  have unknown := spelling.ofWord?_inside (List.take_append_drop (gap + 1) spelled).symm
    (List.ne_nil_of_length_pos (by rw [List.length_take]; omega)) ends (text.take offset).reverse
    other.offset 0
  have known :=
    Mark.ofWord?_spoken (Mark.countsAt_iff.mp (Scope.atOffset_of_mem_marks other_mem).2).2.1
  rw [site_eq, unknown] at known
  cases known

/-- A keyword ends with a byte of a word. -/
theorem exists_last_of_word? :
    ∃ last, last + 1 = offset + length ∧ (text.drop last).head?.any Byte.isIdentifier = true := by
  obtain ⟨spelled, after, rest_eq, rfl, spelling, -⟩ := Spelling.exists_of_word? member found
  obtain ⟨front, last, rfl, identifier⟩ := spelling.exists_last
  refine ⟨offset + front.length,
    by rw [List.length_append, List.length_singleton, Nat.add_assoc], ?_⟩
  have drop_eq : text.drop offset = front ++ [last] ++ after := rest_eq
  rw [← List.drop_drop, drop_eq, List.append_assoc, List.drop_left]
  exact identifier

/-- A keyword does not reach into bytes that belong to no word. -/
theorem word?_le_of_wordless {body rest : Text} (split : text = body ++ rest)
    (wordless : ∀ byte ∈ rest, byte.isIdentifier = false) : offset + length ≤ body.length := by
  obtain ⟨last, length_eq, word⟩ := exists_last_of_word? member found
  by_contra beyond
  obtain ⟨gap, rfl⟩ := Nat.exists_eq_add_of_le (show body.length ≤ last by omega)
  rw [split, List.drop_length_add_append, Option.any_eq_true] at word
  obtain ⟨byte, head_eq, identifier⟩ := word
  have listed : byte ∈ rest := List.mem_of_mem_drop (List.mem_of_mem_head? head_eq)
  rw [wordless byte listed] at identifier
  cases identifier

/-- A keyword ends in the body. -/
theorem word?_le_bodyEnd : offset + length ≤ Statement.bodyEnd text := by
  obtain ⟨last, length_eq, word⟩ := exists_last_of_word? member found
  rw [← length_eq]
  exact Statement.lt_bodyEnd word

end Keywords

namespace Scope

variable {text : Text} {filter : Nat} (member : ⟨.clause .filter, filter⟩ ∈ Outline.marks text)

include member

/-- A `WHERE` does not reach into a text without bytes of words. -/
theorem add_five_le_of_mem_marks {body after : Text} (split : text = body ++ after)
    (wordless : ∀ byte ∈ after, byte.isIdentifier = false) : filter + 5 ≤ body.length :=
  word?_le_of_wordless (Mark.keyword_mem_clause .filter) (word?_filter_of_mem_marks member) split
    wordless

/-- A `WHERE` ends in the body. -/
theorem add_five_le_bodyEnd : filter + 5 ≤ Statement.bodyEnd text :=
  word?_le_bodyEnd (Mark.keyword_mem_clause .filter) (word?_filter_of_mem_marks member)

/-- A `WHERE` of the outline ends before any further keyword begins. -/
theorem add_five_le_of_mem_marks_of_lt {mark : MarkAt} (mark_mem : mark ∈ Outline.marks text)
    (after : filter < mark.offset) : filter + 5 ≤ mark.offset :=
  word?_le_of_mem_marks (Mark.keyword_mem_clause .filter) (word?_filter_of_mem_marks member)
    mark_mem after

end Scope

namespace Outline

variable {text : Text} {found : ClauseAt}

/-- A clause of the outline begins with a mark. -/
theorem mem_marks_of_mem_clauses (listed : found ∈ (ofText text).clauses) :
    ⟨.clause found.clause, found.offset⟩ ∈ marks text :=
  Scope.mem_marks_of_find? (listed_ofText text found listed)

/-- The keyword of a clause of the outline is spelled at the offset of the clause. -/
theorem exists_word?_of_mem_clauses (listed : found ∈ (ofText text).clauses) :
    ∃ length, (Site.atOffset text found.offset).word? found.clause.keyword = some length ∧
      0 < length := by
  have occurs :=
    (Mark.countsAt_iff.mp (Scope.atOffset_of_mem_marks (mem_marks_of_mem_clauses listed)).2).2.1
  obtain ⟨keyword, keyword_mem, has_word⟩ := List.any_eq_true.mp occurs
  obtain rfl := List.mem_singleton.mp keyword_mem
  obtain ⟨length, word_eq⟩ := Option.isSome_iff_exists.mp has_word
  obtain ⟨spelled, -, -, rfl, spelling, -⟩ := Spelling.exists_of_word? keyword_mem word_eq
  obtain ⟨front, last, rfl, -⟩ := spelling.exists_last
  exact ⟨_, word_eq, by simp⟩

end Outline

end TenantScope
