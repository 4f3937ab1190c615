import Mathlib.Order.Bounds.Basic
import TenantScope.Proofs.Placement
import TenantScope.Scanner

/-!
# What the scanner finds

The scanner steps over literals byte by byte and over words and keywords as wholes.  It finds the
outline of its text: each clause at the first place where its keyword stands outside literals and
parentheses and not as a part of a qualified name.
-/

namespace TenantScope

open Text Site Literal

namespace Outline

/-- Taking note of a place, if keywords of the outline count there. -/
def regard (outline : Outline) (site : Site) : Outline :=
  if counts site then outline.note site else outline

theorem ofText_eq (text : Text) : ofText text = (start text).code.foldl regard empty := by
  rw [ofText, List.foldl_filter]
  rfl

end Outline

namespace Scanner

open Outline

/-! ## Keywords -/

/-- The keywords of the outline are the ones that its marks have. -/
theorem mem_keywords {keyword : Text} :
    keyword ∈ keywords ↔ ∃ mark : Mark, mark.inOutline = true ∧ keyword ∈ mark.keywords := by
  constructor
  · intro member
    rcases List.mem_append.mp member with member | member
    · obtain ⟨clause, -, rfl⟩ := List.mem_map.mp member
      exact ⟨.clause clause, rfl, List.mem_singleton.mpr rfl⟩
    · rcases List.mem_cons.mp member with rfl | member
      · exact ⟨.source, rfl, List.mem_singleton.mpr rfl⟩
      · exact ⟨.combination, rfl, member⟩
  · rintro ⟨mark, in_outline, member⟩
    cases mark with
    | clause clause =>
        rw [Mark.keywords, List.mem_singleton] at member
        refine List.mem_append_left _ (List.mem_map.mpr ⟨clause, ?_, member.symm⟩)
        cases clause <;> decide
    | source =>
        rw [Mark.keywords, List.mem_singleton] at member
        exact List.mem_append_right _ (member ▸ List.mem_cons_self)
    | combination => exact List.mem_append_right _ (List.mem_cons_of_mem _ member)
    | later => simp [Mark.inOutline] at in_outline
    | alternative => simp [Mark.inOutline] at in_outline

theorem keyword?_eq_none {site : Site} :
    keyword? site = none ↔ ∀ keyword ∈ keywords, site.hasWord keyword = false := by
  simp only [keyword?, List.findSome?_eq_none_iff, hasWord, Option.isSome_eq_false_iff,
    Option.isNone_iff_eq_none]

/-- Where no keyword of the outline occurs there is nothing to take note of. -/
theorem note_of_keyword?_eq_none {site : Site} (silent : keyword? site = none)
    (outline : Outline) : outline.note site = outline := by
  rw [keyword?_eq_none] at silent
  have no_clause : clauseAt? site = none := by
    refine List.find?_eq_none.mpr fun clause _ => ?_
    rw [silent _ (mem_keywords.mpr ⟨.clause clause, rfl, List.mem_singleton.mpr rfl⟩)]
    decide
  have no_source : site.word? sourceKeyword = none := by
    simpa [hasWord] using silent _ (mem_keywords.mpr ⟨.source, rfl, List.mem_singleton.mpr rfl⟩)
  have no_operator : setOperators.any site.hasWord = false := by
    refine List.any_eq_false.mpr fun operator member => ?_
    rw [silent _ (mem_keywords.mpr ⟨.combination, rfl, member⟩)]
    decide
  simp [note, no_clause, no_source, no_operator]

/-- No keyword occurs at a word with which none begins. -/
theorem keyword?_of_unknown {site : Site} (unknown : Mark.ofWord? site.spoken = none) :
    keyword? site = none := by
  refine keyword?_eq_none.mpr fun keyword member => Bool.eq_false_iff.mpr fun occurs => ?_
  obtain ⟨mark, -, member⟩ := mem_keywords.mp member
  have found := Mark.ofWord?_spoken (List.any_eq_true.mpr ⟨keyword, member, occurs⟩ :
    mark.occursAt site = true)
  rw [unknown] at found
  simp at found

theorem keyword?_of_silent {site : Site} (silent : site.spoken = []) : keyword? site = none :=
  keyword?_of_unknown (by rw [silent]; decide)

/-- A keyword is the word at its place, perhaps with white space and a second word after it. -/
theorem exists_of_word? {mark : Mark} {keyword : Text} (member : keyword ∈ mark.keywords)
    {back written rest : Text} {offset depth length : Nat} (name : IsName written)
    (ends : rest.head?.any Byte.isIdentifier = false)
    (found : Site.word? keyword ⟨back, written ++ rest, offset, depth⟩ = some length) :
    length = written.length ∨
      ∃ blanks second after, rest = blanks ++ (second ++ after) ∧ blanks ≠ [] ∧
        (∀ byte ∈ blanks, byte.isSpace = true) ∧ upper second = ascii "BY" ∧
        after.head?.any Byte.isIdentifier = false ∧
        length = written.length + (blanks.length + second.length) := by
  have occurs : Site.hasWord keyword ⟨back, written ++ rest, offset, depth⟩ = true := by
    simp [hasWord, found]
  obtain ⟨-, -, begins, length', after, spelled, after_ends⟩ := hasWord_iff.mp occurs
  obtain rfl : length = length' := by
    unfold word? at found
    split at found
    · simp at found
    · rw [spelled] at found
      simpa [after_ends] using found.symm
  have whole {first : Text} (identifiers : ∀ letter ∈ first, letter.isIdentifier = true)
      {count : Nat} {others : Text} (split : Word.spelled? first (written ++ rest) =
        some (count, others)) (others_end : others.head?.any Byte.isIdentifier = false) :
      count = written.length ∧ others = rest := by
    obtain ⟨other, text_eq, upper_eq, count_eq⟩ := (Word.spelled?_eq_some identifiers).mp split
    have taken := congrArg (List.takeWhile Byte.isIdentifier) text_eq
    rw [takeWhile_isIdentifier_append name.identifiers ends,
      takeWhile_isIdentifier_append (isIdentifier_of_upper_eq identifiers upper_eq) others_end]
      at taken
    subst taken
    exact ⟨count_eq, (List.append_cancel_left text_eq).symm⟩
  have phrase {first : Text} (is_first : IsName first)
      (spelled : Word.spelled? (first ++ Byte.blank :: ascii "BY") (written ++ rest) =
        some (length, after)) :
      ∃ blanks second after, rest = blanks ++ (second ++ after) ∧ blanks ≠ [] ∧
        (∀ byte ∈ blanks, byte.isSpace = true) ∧ upper second = ascii "BY" ∧
        after.head?.any Byte.isIdentifier = false ∧
        length = written.length + (blanks.length + second.length) := by
    obtain ⟨count, others, other, spelled_first, gap, spelled_second, total⟩ :=
      (Word.spelled?_phrase (Word.ne_blank_of_identifiers is_first.identifiers)).mp spelled
    obtain ⟨second, rest_eq, second_eq, other_eq⟩ :=
      (Word.spelled?_eq_some Mark.isName_by.identifiers).mp spelled_second
    have others_end : others.head?.any Byte.isIdentifier = false := by
      cases others with
      | nil => rfl
      | cons byte others =>
          cases space : byte.isSpace with
          | true => simpa using Byte.isIdentifier_of_isSpace byte space
          | false => simp [space] at gap
    obtain ⟨count_eq, rfl⟩ := whole is_first.identifiers spelled_first others_end
    refine ⟨others.takeWhile Byte.isSpace, second, after, ?_, gap,
      fun byte member => List.mem_takeWhile_imp member, second_eq, after_ends, ?_⟩
    · rw [← rest_eq, List.takeWhile_append_dropWhile]
    · rw [total, count_eq, other_eq]
  rcases Mark.keyword_cases member with is_name | rfl | rfl
  · exact .inl (whole is_name.identifiers spelled after_ends).1
  · exact .inr (phrase Mark.isName_group spelled)
  · exact .inr (phrase Mark.isName_order spelled)

/-- The second word of a phrase, after the white space before it. -/
theorem isName_of_upper_by {second : Text} (second_eq : upper second = ascii "BY") :
    IsName second :=
  ⟨by rintro rfl; simp [upper, ascii] at second_eq,
    isIdentifier_of_upper_eq Mark.isName_by.identifiers second_eq⟩

/-! ## Runs of the scanner -/

/-- Bytes that are read already are passed over. -/
theorem run_skip (scanner : Scanner) (back : Text) (offset : Nat) (read rest : Text) :
    run scanner back offset read.length (read ++ rest) =
      run scanner (read.reverse ++ back) (offset + read.length) 0 rest := by
  induction read generalizing back offset with
  | nil => simp
  | cons byte read ih =>
      rw [List.length_cons, List.cons_append, run, ih]
      simp [Nat.add_assoc, Nat.add_comm 1]

section Code

variable (depth offset : Nat) (outline : Outline)

theorem run_plain (back rest : Text) {byte : Byte} (identifier : byte.isIdentifier = false)
    (quote : byte.isQuote = false) :
    run ⟨.code, depth, outline⟩ back offset 0 (byte :: rest) =
      run ⟨.code, depthAfter byte depth, outline⟩ (byte :: back) (offset + 1) 0 rest := by
  simp [run, stepCode, identifier, quote]

theorem run_blanks {blanks : Text} (blank : ∀ byte ∈ blanks, byte.isSpace = true)
    (back rest : Text) :
    run ⟨.code, depth, outline⟩ back offset 0 (blanks ++ rest) =
      run ⟨.code, depth, outline⟩ (blanks.reverse ++ back) (offset + blanks.length) 0 rest := by
  induction blanks generalizing back offset with
  | nil => simp
  | cons byte blanks ih =>
      rw [List.forall_mem_cons] at blank
      have unnested : depthAfter byte depth = depth := by
        simp [depthAfter, Byte.depthless_of_isSpace byte blank.1]
      rw [List.cons_append, run_plain _ _ _ _ _ (Byte.isIdentifier_of_isSpace byte blank.1)
        (Byte.isQuote_of_isSpace byte blank.1), unnested, ih _ blank.2]
      simp [Nat.add_assoc, Nat.add_comm 1]

/-- A whole word without a keyword is passed over. -/
theorem run_word_of_silent (back rest : Text) {written : Text} (name : IsName written)
    (ends : rest.head?.any Byte.isIdentifier = false)
    (silent : keyword? ⟨back, written ++ rest, offset, depth⟩ = none) :
    run ⟨.code, depth, outline⟩ back offset 0 (written ++ rest) =
      run ⟨.code, depth, outline⟩ (written.reverse ++ back) (offset + written.length) 0 rest := by
  have taken := takeWhile_isIdentifier_append name.identifiers ends
  obtain ⟨first, others, rfl⟩ := List.exists_cons_of_ne_nil name.nonempty
  have identifier := name.identifiers first List.mem_cons_self
  rw [List.cons_append] at taken silent ⊢
  have step : stepWord ⟨.code, depth, outline⟩ ⟨back, first :: (others ++ rest), offset, depth⟩ =
      (⟨.code, depth, outline⟩, others.length + 1) := by
    simp only [stepWord, silent, taken, List.length_cons, ite_self]
  rw [run]
  simp only [stepCode, Byte.isQuote_of_isIdentifier first identifier, identifier, if_true, step,
    Bool.false_eq_true, if_false, Nat.add_sub_cancel]
  rw [run_skip]
  simp [Nat.add_assoc, Nat.add_comm 1]

/-- What a phrase has after its first word is read without taking note of anything. -/
theorem run_phrase {blanks second after : Text} (blanks_ne : blanks ≠ [])
    (blank : ∀ byte ∈ blanks, byte.isSpace = true) (second_eq : upper second = ascii "BY")
    (ends : after.head?.any Byte.isIdentifier = false) (back : Text) :
    run ⟨.code, depth, outline⟩ back offset 0 (blanks ++ (second ++ after)) =
      run ⟨.code, depth, outline⟩ ((blanks ++ second).reverse ++ back)
        (offset + (blanks ++ second).length) 0 after := by
  have name := isName_of_upper_by second_eq
  have begins : (blanks.reverse ++ back).head?.any Byte.isIdentifier = false := by
    obtain ⟨last, others, reverse_eq⟩ :=
      List.exists_cons_of_ne_nil (List.reverse_ne_nil_iff.mpr blanks_ne)
    have member : last ∈ blanks := by
      rw [← List.mem_reverse, reverse_eq]
      exact List.mem_cons_self
    simpa [reverse_eq] using Byte.isIdentifier_of_isSpace last (blank last member)
  have spoken_eq :
      Site.spoken ⟨blanks.reverse ++ back, second ++ after, offset + blanks.length, depth⟩ =
        ascii "BY" := by
    rw [spoken, afterIdentifier, previous?, begins,
      takeWhile_isIdentifier_append name.identifiers ends, second_eq]
    rfl
  rw [run_blanks _ _ _ blank,
    run_word_of_silent _ _ _ _ _ name ends (keyword?_of_unknown (by rw [spoken_eq]; decide))]
  simp [Nat.add_assoc]

/-- At a whole word the scanner takes note of the keyword there, if it counts, and
goes on after the word. -/
theorem run_word (back rest : Text) {written : Text} (name : IsName written)
    (ends : rest.head?.any Byte.isIdentifier = false) :
    run ⟨.code, depth, outline⟩ back offset 0 (written ++ rest) =
      run ⟨.code, depth, outline.regard ⟨back, written ++ rest, offset, depth⟩⟩
        (written.reverse ++ back) (offset + written.length) 0 rest := by
  cases found : keyword? ⟨back, written ++ rest, offset, depth⟩ with
  | none =>
      have unchanged : outline.regard ⟨back, written ++ rest, offset, depth⟩ = outline := by
        rw [regard, note_of_keyword?_eq_none found, ite_self]
      rw [unchanged, run_word_of_silent _ _ _ _ _ name ends found]
  | some length =>
      obtain ⟨keyword, member, found_word⟩ := List.exists_of_findSome?_eq_some found
      obtain ⟨mark, -, member⟩ := mem_keywords.mp member
      have keyword := exists_of_word? member name ends found_word
      have taken := takeWhile_isIdentifier_append name.identifiers ends
      obtain ⟨first, others, rfl⟩ := List.exists_cons_of_ne_nil name.nonempty
      have identifier := name.identifiers first List.mem_cons_self
      rw [List.cons_append] at taken found ⊢
      have top_level : counts ⟨back, first :: (others ++ rest), offset, depth⟩ =
          (depth == 0 && !Site.afterDot ⟨back, first :: (others ++ rest), offset, depth⟩) := by
        have apart := Byte.not_paren_of_isIdentifier first identifier
        simp only [counts, isTopLevel, atParen, byte?, List.head?_cons, Option.some_beq_some, apart,
          Bool.not_false, Bool.and_true]
      rw [run, regard, top_level]
      simp only [stepCode, Byte.isQuote_of_isIdentifier first identifier, identifier, if_true,
        Bool.false_eq_true, if_false, stepWord, found]
      split
      · rcases keyword with rfl | ⟨blanks, second, after, rfl, blanks_ne, blank, second_eq,
          after_ends, rfl⟩
        · simp only [List.length_cons, Nat.add_sub_cancel]
          rw [run_skip]
          simp [Nat.add_assoc, Nat.add_comm 1]
        · have read_eq : others ++ (blanks ++ (second ++ after)) =
              (others ++ (blanks ++ second)) ++ after := by
            simp only [List.append_assoc]
          have length_eq : (first :: others).length + (blanks.length + second.length) - 1 =
              (others ++ (blanks ++ second)).length := by
            simp only [List.length_append, List.length_cons]
            omega
          have offset_eq : offset + 1 + (others ++ (blanks ++ second)).length =
              offset + (first :: others).length + (blanks ++ second).length := by
            simp only [List.length_append, List.length_cons]
            omega
          simp only [length_eq]
          rw [run_phrase _ _ _ blanks_ne blank second_eq after_ends, read_eq, run_skip, offset_eq]
          simp
      · simp only [taken, List.length_cons, Nat.add_sub_cancel]
        rw [run_skip]
        simp [Nat.add_assoc, Nat.add_comm 1]

/-- Inside a literal the scanner comes to the byte after it, or to the end if nothing closes it. -/
theorem run_inside (mark : Byte) (escapes : Bool) (back text : Text) :
    run ⟨.literal mark escapes, depth, outline⟩ back offset 0 text =
      match closing? mark escapes text with
      | none => outline
      | some length =>
          run ⟨.code, depth, outline⟩ ((text.take length).reverse ++ back) (offset + length) 0
            (text.drop length) := by
  fun_induction closing? mark escapes text generalizing back offset with
  | case1 => rfl
  | case2 byte escaped => simp [run, stepLiteral, escaped]
  | case3 byte escaped next rest ih =>
      have two : run ⟨.literal mark escapes, depth, outline⟩ back offset 0 (byte :: next :: rest) =
          run ⟨.literal mark escapes, depth, outline⟩ (next :: byte :: back) (offset + 1 + 1) 0
            rest := by
        simp [run, stepLiteral, escaped]
      rw [two, ih]
      cases closing? mark escapes rest <;> simp [Nat.add_assoc, Nat.add_comm 2]
  | case4 byte plain same =>
      simp [run, stepLiteral, plain, same]
  | case5 byte plain same next rest doubled ih =>
      have two : run ⟨.literal mark escapes, depth, outline⟩ back offset 0 (byte :: next :: rest) =
          run ⟨.literal mark escapes, depth, outline⟩ (next :: byte :: back) (offset + 1 + 1) 0
            rest := by
        simp only [beq_iff_eq] at doubled
        simp [run, stepLiteral, plain, same, doubled]
      rw [two, ih]
      cases closing? mark escapes rest <;> simp [Nat.add_assoc, Nat.add_comm 2]
  | case6 byte plain same next rest single =>
      have one : run ⟨.literal mark escapes, depth, outline⟩ back offset 0 (byte :: next :: rest) =
          run ⟨.code, depth, outline⟩ (byte :: back) (offset + 1) 0 (next :: rest) := by
        rw [run]
        simp only [beq_iff_eq] at single
        simp [stepLiteral, plain, same, single]
      rw [one]
      simp
  | case7 byte rest plain other ih =>
      have one : run ⟨.literal mark escapes, depth, outline⟩ back offset 0 (byte :: rest) =
          run ⟨.literal mark escapes, depth, outline⟩ (byte :: back) (offset + 1) 0 rest := by
        simp [run, stepLiteral, plain, other]
      rw [one, ih]
      cases closing? mark escapes rest <;> simp [Nat.add_assoc, Nat.add_comm 1]

end Code

/-! ## The outline that is found -/

section Regard

variable (depth offset : Nat) (outline : Outline)

theorem regard_of_silent {site : Site} (silent : site.spoken = []) :
    outline.regard site = outline := by
  rw [regard, note_of_keyword?_eq_none (keyword?_of_silent silent), ite_self]

/-- In the middle of a word there is nothing to take note of. -/
theorem foldl_regard_inside {written back : Text} (rest : Text)
    (identifiers : ∀ byte ∈ written, byte.isIdentifier = true)
    (inside : back.head?.any Byte.isIdentifier = true) :
    (code ⟨back, written ++ rest, offset, depth⟩).foldl regard outline =
      (code ⟨written.reverse ++ back, rest, offset + written.length, depth⟩).foldl regard
        outline := by
  induction written generalizing back offset with
  | nil => simp
  | cons byte written ih =>
      rw [List.forall_mem_cons] at identifiers
      have unnested : depthAfter byte depth = depth := by
        simp [depthAfter, Byte.depthless_of_isIdentifier byte identifiers.1]
      have silent : Site.spoken ⟨back, byte :: (written ++ rest), offset, depth⟩ = [] := by
        simp [spoken, afterIdentifier, previous?, inside]
      rw [List.cons_append, code_cons _ _ _ _ (Byte.isQuote_of_isIdentifier byte identifiers.1),
        List.foldl_cons, regard_of_silent _ silent, unnested,
        ih _ identifiers.2 (by simp [identifiers.1])]
      simp [Nat.add_assoc, Nat.add_comm 1]

/-- Only the beginning of a word can hold something to take note of. -/
theorem foldl_regard_word {written : Text} (back rest : Text) (name : IsName written) :
    (code ⟨back, written ++ rest, offset, depth⟩).foldl regard outline =
      (code ⟨written.reverse ++ back, rest, offset + written.length, depth⟩).foldl regard
        (outline.regard ⟨back, written ++ rest, offset, depth⟩) := by
  obtain ⟨first, others, rfl⟩ := List.exists_cons_of_ne_nil name.nonempty
  have identifiers := List.forall_mem_cons.mp name.identifiers
  have unnested : depthAfter first depth = depth := by
    simp [depthAfter, Byte.depthless_of_isIdentifier first identifiers.1]
  rw [List.cons_append, code_cons _ _ _ _ (Byte.isQuote_of_isIdentifier first identifiers.1),
    List.foldl_cons, unnested, foldl_regard_inside _ _ _ _ identifiers.2 (by simp [identifiers.1])]
  simp [Nat.add_assoc, Nat.add_comm 1]

end Regard

/-- From the beginning of a word on, the scanner takes note of the places outside literals. -/
theorem run_eq (back text : Text)
    (begins : back.head?.any Byte.isIdentifier = true →
      text.head?.any Byte.isIdentifier = false) :
    ∀ (depth offset : Nat) (outline : Outline), run ⟨.code, depth, outline⟩ back offset 0 text =
      (code ⟨back, text, offset, depth⟩).foldl regard outline := by
  refine word_induction .standard ?nil ?word ?plain ?literal ?unclosed back text begins
  case nil =>
    intro back depth offset outline
    simp [run, code_nil]
  case word =>
    intro back written rest name _ ends ih depth offset outline
    rw [run_word _ _ _ _ _ name ends, ih, foldl_regard_word _ _ _ _ _ name]
  case plain =>
    intro back byte rest identifier quote ih depth offset outline
    have silent : Site.spoken ⟨back, byte :: rest, offset, depth⟩ = [] := by
      simp [spoken, identifier, upper]
    rw [run_plain _ _ _ _ _ identifier quote, ih, code_cons _ _ _ _ quote, List.foldl_cons,
      regard_of_silent _ silent]
  case literal =>
    intro back mark literal rest quote closed ih depth offset outline
    have entered : run ⟨.code, depth, outline⟩ back offset 0 (mark :: (literal ++ rest)) =
        run ⟨.literal mark (escapesAfter .standard back mark), depth, outline⟩ (mark :: back)
          (offset + 1) 0 (literal ++ rest) := by
      rw [run, ← escapesAt_mk .standard back mark (literal ++ rest) offset depth]
      simp [stepCode, quote, escapesAt]
    rw [entered, run_inside, closed, code_literal _ _ _ _ _ quote closed, ← ih]
    simp [Nat.add_assoc, Nat.add_comm 1]
  case unclosed =>
    intro back mark rest quote unclosed depth offset outline
    have entered : run ⟨.code, depth, outline⟩ back offset 0 (mark :: rest) =
        run ⟨.literal mark (escapesAfter .standard back mark), depth, outline⟩ (mark :: back)
          (offset + 1) 0 rest := by
      rw [run, ← escapesAt_mk .standard back mark rest offset depth]
      simp [stepCode, quote, escapesAt]
    rw [entered, run_inside, unclosed, code_unclosed _ _ _ _ quote unclosed]
    rfl

/-- The scanner finds the outline of the text. -/
theorem scan_eq_ofText (text : Text) : scan text = ofText text := by
  rw [scan, run_eq _ _ (by simp), ofText_eq, start]

end Scanner

namespace Outline

/-! ## The first occurrences of keywords -/

/-- Number of parentheses open at an offset: the opening ones less the closing ones before it
outside literals, where a closing one that opens nothing is not counted. -/
def openBefore (text : Text) (offset : Nat) : Nat :=
  (((start text).code.filter fun place => decide (place.offset < offset)).filterMap
    Site.byte?).foldl (fun depth byte => depthAfter byte depth) 0

/-- A keyword stands at an offset of a text: the offset lies outside literals and parentheses, no
full stop comes directly before it, and the keyword is spelled there as a whole word. -/
structure Stands (text keyword : Text) (offset : Nat) : Prop where
  outside : ∃ place ∈ (start text).code, place.offset = offset
  level : openBefore text offset = 0
  unqualified : (Site.atOffset text offset).previous? ≠ some Byte.dot
  spelled : (Site.atOffset text offset).hasWord keyword = true

/-- The depth of a place outside literals counts the parentheses before it. -/
theorem depth_of_mem_code (back text : Text) (offset depth : Nat) :
    ∀ site ∈ code ⟨back, text, offset, depth⟩,
      (((code ⟨back, text, offset, depth⟩).filter
        fun place => decide (place.offset < site.offset)).filterMap Site.byte?).foldl
          (fun depth byte => depthAfter byte depth) depth = site.depth := by
  induction back, text using lexeme_induction .standard generalizing offset depth with
  | nil back => simp [code_nil]
  | code back byte rest plain ih =>
      intro site member
      rw [code_cons _ _ _ _ plain] at member ⊢
      rcases List.mem_cons.mp member with rfl | member
      · have none_before : ∀ place ∈ code ⟨byte :: back, rest, offset + 1, depthAfter byte depth⟩,
            ¬ decide (place.offset < offset) = true := by
          intro place place_mem
          have bound := le_offset_of_mem_code place_mem
          simp only [decide_eq_true_eq]
          omega
        simp [List.filter_eq_nil_iff.mpr none_before]
      · have bound := le_offset_of_mem_code member
        have before : offset < site.offset := by omega
        rw [List.filter_cons_of_pos (by simpa using before), ← ih _ _ site member]
        simp [byte?]
  | literal back mark literal rest quote closed ih =>
      rw [code_literal _ _ _ _ _ quote closed]
      exact ih _ _
  | unclosed back mark rest quote unclosed =>
      simp [code_unclosed _ _ _ _ quote unclosed]

/-- A place outside literals is the place of its offset but for the parentheses. -/
theorem atOffset_of_mem_code {text : Text} {site : Site} (member : site ∈ (start text).code) :
    site = { Site.atOffset text site.offset with depth := openBefore text site.offset } := by
  obtain ⟨back_eq, rest_eq⟩ := of_mem_tour_start (List.mem_filter.mp member).1
  have depth_eq := depth_of_mem_code [] text 0 0 site member
  obtain ⟨back, rest, offset, depth⟩ := site
  simp only at back_eq rest_eq depth_eq
  subst back_eq rest_eq
  rw [Site.atOffset, openBefore, start, depth_eq]

/-- A keyword of the outline stands where its mark is. -/
theorem mem_marks_iff_stands {text : Text} {mark : Mark} (in_outline : mark.inOutline = true)
    {offset : Nat} :
    ⟨mark, offset⟩ ∈ marks text ↔ ∃ keyword ∈ mark.keywords, Stands text keyword offset := by
  rw [marks, mem_marks]
  constructor
  · rintro ⟨place, member, found, rfl⟩
    obtain ⟨level, occurs, undotted⟩ := Mark.countsAt_iff.mp (mark?_eq_some.mp found)
    obtain ⟨keyword, keyword_mem, occurs⟩ := List.any_eq_true.mp occurs
    have place_eq := atOffset_of_mem_code member
    refine ⟨keyword, keyword_mem, ⟨place, member, rfl⟩, ?_, ?_, ?_⟩
    · rw [place_eq] at level
      exact level
    · have unqualified := undotted in_outline
      rw [place_eq, afterDot] at unqualified
      simpa [previous?] using unqualified
    · rw [place_eq] at occurs
      exact occurs
  · rintro ⟨keyword, keyword_mem, ⟨place, member, rfl⟩, level, unqualified, spelled⟩
    have place_eq := atOffset_of_mem_code member
    refine ⟨place, member, mark?_eq_some.mpr (Mark.countsAt_iff.mpr ⟨?_, ?_, fun _ => ?_⟩), rfl⟩
    · rw [place_eq]
      exact level
    · refine List.any_eq_true.mpr ⟨keyword, keyword_mem, ?_⟩
      rw [place_eq]
      exact spelled
    · rw [place_eq, afterDot]
      exact Bool.eq_false_iff.mpr fun dotted => unqualified (by simpa [previous?] using dotted)

/-- Taking note of a place lists at most the clause that begins there. -/
theorem clauses_note (outline : Outline) (site : Site) :
    (outline.note site).clauses = outline.clauses ∨
      ∃ clause, (outline.note site).clauses = outline.clauses ++ [⟨clause, site.offset⟩] := by
  unfold note
  split
  · unfold addClause
    split
    · exact .inl rfl
    · exact .inr ⟨_, rfl⟩
  · unfold addSource
    split
    · split <;> exact .inl rfl
    · split <;> exact .inl rfl

/-- Clauses are listed in the order of the places at which they are noted. -/
theorem pairwise_foldl_note {sites : List Site} {outline : Outline}
    (ordered : sites.Pairwise fun earlier later => earlier.offset < later.offset)
    (listed : outline.clauses.Pairwise fun earlier later => earlier.offset < later.offset)
    (before : ∀ found ∈ outline.clauses, ∀ site ∈ sites, found.offset < site.offset) :
    (sites.foldl note outline).clauses.Pairwise fun earlier later =>
      earlier.offset < later.offset := by
  induction sites generalizing outline with
  | nil => exact listed
  | cons site sites ih =>
      obtain ⟨first, ordered⟩ := List.pairwise_cons.mp ordered
      have earlier : ∀ found ∈ outline.clauses, ∀ other ∈ sites, found.offset < other.offset :=
        fun found member other other_mem =>
          before found member other (List.mem_cons_of_mem _ other_mem)
      rw [List.foldl_cons]
      rcases clauses_note outline site with same | ⟨clause, grown⟩
      · exact ih ordered (same ▸ listed) (same ▸ earlier)
      · refine ih ordered ?_ ?_
        · rw [grown, List.pairwise_append]
          refine ⟨listed, List.pairwise_singleton _ _, fun found member other other_mem => ?_⟩
          rw [List.mem_singleton.mp other_mem]
          exact before found member site List.mem_cons_self
        · rw [grown]
          intro found member
          rcases List.mem_append.mp member with member | member
          · exact earlier found member
          · rw [List.mem_singleton.mp member]
            exact first

/-- The clauses of an outline are listed in the order of the text. -/
theorem pairwise_clauses (text : Text) :
    (ofText text).clauses.Pairwise fun earlier later => earlier.offset < later.offset :=
  pairwise_foldl_note ((pairwise_code_start text).filter _) List.Pairwise.nil (by simp [empty])

/-- Each clause is listed once. -/
theorem nodup_clauses (text : Text) : ((ofText text).clauses.map (·.clause)).Nodup := by
  rw [List.Nodup, List.pairwise_map]
  refine (pairwise_clauses text).imp_of_mem
    fun {earlier later} earlier_mem later_mem before same => ?_
  have found := listed_ofText text earlier earlier_mem
  rw [same, listed_ofText text later later_mem, Option.some.injEq] at found
  omega

theorem mem_clauses_iff {text : Text} {clause : Clause} {offset : Nat} :
    ⟨clause, offset⟩ ∈ (ofText text).clauses ↔ (ofText text).find? clause = some offset := by
  constructor
  · exact fun member => listed_ofText text _ member
  · intro found
    obtain ⟨⟨kind, place⟩, listed, rfl⟩ := Option.map_eq_some_iff.mp found
    have same := List.find?_some listed
    simp only [beq_iff_eq] at same
    exact same ▸ List.mem_of_find?_eq_some listed

/-- In a list in the order of offsets the first element of a kind is the one with the least
offset. -/
theorem find?_map_eq_some_iff_isLeast {element : Type} {offset : element → Nat}
    {list : List element}
    (ordered : list.Pairwise fun earlier later => offset earlier < offset later)
    {wanted : element → Bool} {least : Nat} :
    (list.find? wanted).map offset = some least ↔
      IsLeast {place | ∃ found ∈ list, wanted found = true ∧ offset found = place} least := by
  constructor
  · intro found
    obtain ⟨first, first_eq, rfl⟩ := Option.map_eq_some_iff.mp found
    refine ⟨⟨first, List.mem_of_find?_eq_some first_eq, List.find?_some first_eq, rfl⟩, ?_⟩
    rintro place ⟨other, member, holds, rfl⟩
    exact offset_le_of_find? ordered first_eq member holds
  · rintro ⟨⟨found, member, holds, rfl⟩, lower⟩
    cases first_eq : list.find? wanted with
    | none => exact absurd holds (List.find?_eq_none.mp first_eq found member)
    | some first =>
        have first_mem := List.mem_of_find?_eq_some first_eq
        have least_le := lower ⟨first, first_mem, List.find?_some first_eq, rfl⟩
        have le := offset_le_of_find? ordered first_eq member holds
        rw [Option.map_some, Nat.le_antisymm le least_le]

/-- The first mark of the outline with one keyword is at the first offset where the keyword
stands. -/
theorem find?_marks_eq_some_iff {text keyword : Text} {mark : Mark}
    (in_outline : mark.inOutline = true) (keywords_eq : mark.keywords = [keyword]) {offset : Nat} :
    ((marks text).find? fun found => found.mark == mark).map (·.offset) = some offset ↔
      IsLeast {place | Stands text keyword place} offset := by
  have same : {place | ∃ found ∈ marks text, (found.mark == mark) = true ∧ found.offset = place} =
      {place | Stands text keyword place} := by
    ext place
    constructor
    · rintro ⟨⟨kind, _⟩, member, kind_eq, rfl⟩
      obtain rfl : kind = mark := by simpa using kind_eq
      simpa [keywords_eq] using (mem_marks_iff_stands in_outline).mp member
    · intro stands
      have member := (mem_marks_iff_stands in_outline).mpr ⟨keyword, by simp [keywords_eq], stands⟩
      exact ⟨_, member, by simp, rfl⟩
  rw [find?_map_eq_some_iff_isLeast (pairwise_marks text), same]

theorem source?_eq_none_iff {text : Text} :
    (ofText text).source? = none ↔ ∀ place, ¬ Stands text sourceKeyword place := by
  rw [← Option.map_eq_none_iff (f := Source.offset), source?_ofText, Option.map_eq_none_iff,
    List.find?_eq_none]
  constructor
  · intro absent place stands
    have member := (@mem_marks_iff_stands text .source rfl place).mpr
      ⟨sourceKeyword, by simp [Mark.keywords], stands⟩
    exact absent _ member (by simp)
  · rintro absent ⟨kind, place⟩ member kind_eq
    obtain rfl : kind = .source := by simpa using kind_eq
    obtain ⟨keyword, keyword_mem, stands⟩ := (mem_marks_iff_stands rfl).mp member
    rw [Mark.keywords, List.mem_singleton] at keyword_mem
    exact absent place (keyword_mem ▸ stands)

theorem compound_eq_true_iff {text : Text} :
    (ofText text).compound = true ↔
      ∃ operator ∈ setOperators, ∃ place, Stands text operator place := by
  rw [compound_ofText, List.any_eq_true]
  constructor
  · rintro ⟨⟨kind, place⟩, member, kind_eq⟩
    obtain rfl : kind = .combination := by simpa using kind_eq
    obtain ⟨operator, operator_mem, stands⟩ := (mem_marks_iff_stands rfl).mp member
    exact ⟨operator, operator_mem, place, stands⟩
  · rintro ⟨operator, operator_mem, place, stands⟩
    exact ⟨_, (@mem_marks_iff_stands text .combination rfl place).mpr
      ⟨operator, operator_mem, stands⟩, by simp⟩

/-- The scanner finds the outline that the statements of this library have.  It lists each clause at
the least offset at which its keyword stands, in the order of the text and each clause once; it has
the source at the least offset of `FROM`, and it tells of a combination when `UNION`, `INTERSECT` or
`EXCEPT` stands anywhere. -/
theorem scan_eq_least (text : Text) :
    Scanner.scan text = ofText text ∧
      (∀ clause offset, ⟨clause, offset⟩ ∈ (Scanner.scan text).clauses ↔
        IsLeast {place | Stands text clause.keyword place} offset) ∧
      ((Scanner.scan text).clauses.Pairwise fun earlier later => earlier.offset < later.offset) ∧
      ((Scanner.scan text).clauses.map (·.clause)).Nodup ∧
      (∀ offset, (Scanner.scan text).source?.map (·.offset) = some offset ↔
        IsLeast {place | Stands text (ascii "FROM") place} offset) ∧
      ((Scanner.scan text).source? = none ↔ ∀ place, ¬ Stands text (ascii "FROM") place) ∧
      ((Scanner.scan text).compound = true ↔
        (∃ place, Stands text (ascii "UNION") place) ∨
        (∃ place, Stands text (ascii "INTERSECT") place) ∨
        ∃ place, Stands text (ascii "EXCEPT") place) := by
  rw [Scanner.scan_eq_ofText]
  refine ⟨rfl, fun clause offset => ?_, pairwise_clauses text, nodup_clauses text, fun offset => ?_,
    source?_eq_none_iff, ?_⟩
  · rw [mem_clauses_iff, find?_ofText]
    exact find?_marks_eq_some_iff rfl rfl
  · rw [source?_ofText]
    exact find?_marks_eq_some_iff rfl rfl
  · rw [compound_eq_true_iff]
    simp [setOperators]

end Outline

end TenantScope
