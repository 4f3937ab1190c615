import TenantScope.Proofs.Indices
import TenantScope.Proofs.Words

/-!
# Literals and keywords by index

A literal is passed over, a keyword compared and a keyword outside parentheses looked for by
index.  At every index of a text this stays in the text and finds what the readings of the
text from its places find.
-/

namespace TenantScope

open Text Site

namespace Indexed

variable {text : Text} {depth index : Nat}

/-! ## Looking around -/

/-- The byte before an index, if there is one. -/
def before? (text : Text) (index : Nat) : Option (Option Byte) :=
  if index = 0 then some none
  else do
    let before ← minus? index 1
    let byte ← byteAt? text before
    some (some byte)

theorem before?_eq (depth : Nat) (within : index ≤ text.length) :
    before? text index = some (placed text depth index).previous? := by
  by_cases first : index = 0
  · rw [before?, if_pos first, first, previous?_placed_zero]
  · obtain ⟨byte, byte_eq, -⟩ := exists_byteBefore (Nat.pos_of_ne_zero first) within
    rw [before?, if_neg first, previous?_placed depth (Nat.pos_of_ne_zero first) within,
      minus?_of_le (Nat.pos_of_ne_zero first)]
    simp [byte_eq]

/-- The byte at an index, if the text goes on there. -/
def peek? (text : Text) (index : Nat) : Option (Option Byte) :=
  if index < text.length then do
    let byte ← byteAt? text index
    some (some byte)
  else some none

theorem peek?_eq (text : Text) (index : Nat) : peek? text index = some (text.drop index).head? := by
  by_cases inside : index < text.length
  · obtain ⟨byte, byte_eq, drop_eq⟩ := exists_byteAt inside
    simp [peek?, inside, byte_eq, drop_eq]
  · rw [peek?, if_neg inside, List.drop_of_length_le (by omega), List.head?_nil]

/-! ## Literals -/

/-- The apostrophe at an index begins an escape string. -/
def opensEscapeString? (text : Text) (index : Nat) : Option Bool :=
  if index = 0 ∨ text.length ≤ index then some false
  else do
    let byte ← byteAt? text index
    if byte != Byte.apostrophe then some false
    else do
      let before ← minus? index 1
      let letter ← byteAt? text before
      if letter != Byte.ofChar 'E' && letter != Byte.ofChar 'e' then some false
      else if index = 1 then some true
      else do
        let before ← minus? index 2
        let byte ← byteAt? text before
        some !byte.isIdentifier

theorem opensEscapeString?_eq (text : Text) (depth index : Nat) :
    opensEscapeString? text index = some (Literal.opensEscapeString (placed text depth index)) := by
  rw [opensEscapeString?, Literal.opensEscapeString, byte?_placed]
  by_cases first : index = 0
  · simp [first, placed, Literal.endsInEscapeLetter]
  by_cases outside : text.length ≤ index
  · simp [outside, byteAt?]
  obtain ⟨byte, byte_eq, -⟩ := exists_byteAt (show index < text.length by omega)
  obtain ⟨letter, letter_eq, take_eq⟩ :=
    exists_byteBefore (show 0 < index by omega) (show index ≤ text.length by omega)
  have back_eq : (placed text depth index).back = letter :: (text.take (index - 1)).reverse := by
    rw [placed, take_eq, List.reverse_append]
    rfl
  rw [if_neg (by omega), back_eq, minus?_of_le (by omega)]
  simp only [byte_eq, letter_eq, Literal.endsInEscapeLetter, Option.bind_eq_bind, Option.bind_some]
  by_cases apostrophe : byte = Byte.apostrophe
  · by_cases escape : letter = Byte.ofChar 'E' ∨ letter = Byte.ofChar 'e'
    · by_cases second : index = 1
      · rcases escape with rfl | rfl <;> simp [apostrophe, second] 
      · obtain ⟨other, other_eq, other_take_eq⟩ :=
          exists_byteBefore (show 0 < index - 1 by omega) (show index - 1 ≤ text.length by omega)
        rw [Nat.sub_sub] at other_eq
        rw [minus?_of_le (show 2 ≤ index by omega), other_take_eq, List.reverse_append]
        rcases escape with rfl | rfl <;> simp [apostrophe, second, other_eq]
    · rw [not_or] at escape
      simp [apostrophe, escape]
  · simp [apostrophe]

/-- Where the rest of a literal ends, if it begins at an index. -/
def literalEnd (text : Text) (mark : Byte) (escapes : Bool) (index : Nat) : Nat :=
  match Literal.closing? mark escapes (text.drop index) with
  | some length => index + length
  | none => text.length

/-- A step through a literal. -/
def literalStep (text : Text) (mark : Byte) (escapes : Bool) (index : Nat) :
    Option (Step Nat Nat) :=
  if index < text.length then do
    let byte ← byteAt? text index
    if escapes && byte == Byte.backslash then some (.next (index + 2))
    else if byte == mark then do
      let following ← peek? text (index + 1)
      if following == some mark then some (.next (index + 2)) else some (.done (index + 1))
    else some (.next (index + 1))
  else some (.done text.length)

theorem literalStep_of_byteAt? {byte : Byte} (inside : index < text.length)
    (here : byteAt? text index = some byte) (mark : Byte) (escapes : Bool) :
    literalStep text mark escapes index =
      if (escapes && byte == Byte.backslash) = true then some (.next (index + 2))
      else if byte = mark then
        if (text.drop (index + 1)).head? = some mark then some (.next (index + 2))
        else some (.done (index + 1))
      else some (.next (index + 1)) := by
  simp only [literalStep, if_pos inside, here, peek?_eq, Option.bind_eq_bind, Option.bind_some,
    beq_iff_eq]

theorem literalEnd_add {mark : Byte} {escapes : Bool} {count : Nat}
    (read : Literal.closing? mark escapes (text.drop index) =
      (Literal.closing? mark escapes (text.drop (index + count))).map (· + count)) :
    literalEnd text mark escapes index = literalEnd text mark escapes (index + count) := by
  rw [literalEnd, read, literalEnd]
  cases Literal.closing? mark escapes (text.drop (index + count)) with
  | none => rfl
  | some length =>
      simp only [Option.map_some]
      omega

theorem progress_literalStep (text : Text) (mark : Byte) (escapes : Bool) (index : Nat) :
    Progress (literalStep text mark escapes)
      (fun index result => result = literalEnd text mark escapes index)
      (fun index => text.length - index)
      index (literalEnd text mark escapes index) := by
  by_cases inside : index < text.length
  · obtain ⟨byte, byte_eq, drop_eq⟩ := exists_byteAt inside
    have behind : text.drop (index + 2) = (text.drop (index + 1)).tail := List.tail_drop.symm
    have step_eq := literalStep_of_byteAt? inside byte_eq mark escapes
    by_cases escaped : (escapes && byte == Byte.backslash) = true
    · refine .next (index + 2) (step_eq.trans (if_pos escaped)) (literalEnd_add ?_) (by omega)
      rw [drop_eq, behind, Literal.closing?.eq_def]
      cases text.drop (index + 1) <;> simp [escaped, Literal.closing?]
    rw [if_neg escaped] at step_eq
    by_cases closing : byte = mark
    · rw [if_pos closing] at step_eq
      by_cases doubled : (text.drop (index + 1)).head? = some mark
      · refine .next (index + 2) (step_eq.trans (if_pos doubled)) (literalEnd_add ?_) (by omega)
        rw [drop_eq, behind, Literal.closing?.eq_def]
        cases rest_eq : text.drop (index + 1) <;> simp_all
      · have closed : Literal.closing? mark escapes (byte :: text.drop (index + 1)) = some 1 := by
          rw [Literal.closing?.eq_def]
          dsimp only
          rw [if_neg escaped, if_pos (beq_iff_eq.mpr closing)]
          cases rest_eq : text.drop (index + 1) with
          | nil => rfl
          | cons next rest => exact if_neg (by simpa [rest_eq] using doubled)
        refine .done (step_eq.trans ((if_neg doubled).trans ?_))
        rw [literalEnd, drop_eq, closed]
    · refine .next (index + 1) (step_eq.trans (if_neg closing)) (literalEnd_add ?_) (by omega)
      rw [drop_eq,
        Literal.closing?_cons closing fun escapes_eq => by simpa [escapes_eq] using escaped]
  · refine .done ?_
    rw [literalStep, if_neg inside, literalEnd, List.drop_of_length_le (by omega), Literal.closing?]

/-- Where the literal that begins at an index ends. -/
def skipLiteral? (text : Text) (index : Nat) : Option Nat := do
  let mark ← byteAt? text index
  let escapes ← opensEscapeString? text index
  loop (literalStep text mark escapes) (text.length + 1) (index + 1)

theorem skipLiteral?_eq {mark : Byte} (depth : Nat) (mark_eq : byteAt? text index = some mark) :
    skipLiteral? text index =
      some (index + Literal.width .standard (placed text depth index)) := by
  obtain ⟨inside, -⟩ := List.getElem?_eq_some_iff.mp mark_eq
  obtain ⟨byte, byte_eq, drop_eq⟩ := exists_byteAt inside
  obtain rfl := Option.some_inj.mp (mark_eq.symm.trans byte_eq)
  have width_eq : index + Literal.width .standard (placed text depth index) =
      literalEnd text mark (Literal.opensEscapeString (placed text depth index)) (index + 1) := by
    have length_eq := congrArg List.length drop_eq
    simp only [List.length_drop, List.length_cons] at length_eq
    rw [Literal.width, rest_placed, drop_eq, literalEnd]
    simp only [Literal.escapesAt]
    cases Literal.closing? mark _ (text.drop (index + 1)) <;> simp only [List.length_drop] <;> omega
  rw [skipLiteral?, mark_eq, opensEscapeString?_eq text depth, width_eq]
  exact loop_eq_answer _ _ (progress_literalStep text mark _) (by omega)

theorem width_pos {mark : Byte} (depth : Nat) (mark_eq : byteAt? text index = some mark) :
    0 < Literal.width .standard (placed text depth index) := by
  obtain ⟨inside, -⟩ := List.getElem?_eq_some_iff.mp mark_eq
  rw [Literal.width, rest_placed, List.drop_eq_getElem_cons inside]
  dsimp only
  split <;> omega

/-! ## Keywords -/

/-- Where the spelling of a keyword that begins at an index ends, or nothing if the text has
another. -/
def spell? (text : Text) : (keyword : Text) → (index : Nat) → Option (Option Nat)
  | [], index => some (some index)
  | letter :: keyword, index =>
      if letter == Byte.blank then do
        let byte ← peek? text index
        if byte.any Byte.isSpace then do
          let next ← skip? text Byte.isSpace text.length index
          spell? text keyword next
        else some none
      else if index < text.length then do
        let byte ← byteAt? text index
        if byte.toUpper == letter then spell? text keyword (index + 1) else some none
      else some none

theorem spell?_eq (text keyword : Text) (index : Nat) :
    spell? text keyword index =
      some ((Word.spelled? keyword (text.drop index)).map fun found => index + found.1) := by
  induction keyword generalizing index with
  | nil => simp [spell?, Word.spelled?]
  | cons letter keyword ih =>
      rw [spell?, Word.spelled?.eq_def]
      dsimp only
      by_cases blank : (letter == Byte.blank) = true
      · rw [if_pos blank, if_pos blank, peek?_eq, Option.bind_eq_bind, Option.bind_some]
        have after_eq : text.drop (index + ((text.drop index).takeWhile Byte.isSpace).length) =
            (text.drop index).dropWhile Byte.isSpace := by
          rw [← List.drop_drop, drop_length_takeWhile]
        simp only [skip?_length, Option.bind_eq_bind, Option.bind_some, ih, after_eq]
        generalize text.drop index = rest
        cases rest with
        | nil => rfl
        | cons byte rest =>
            cases space : byte.isSpace with
            | true =>
                simp only [List.head?_cons, Option.any_some, space, if_true,
                  List.takeWhile_cons_of_pos space, Option.map_map]
                congr 2
                funext found
                simp only [Function.comp_apply]
                omega
            | false => simp [space]
      · rw [if_neg blank, if_neg blank]
        by_cases inside : index < text.length
        · obtain ⟨byte, byte_eq, drop_eq⟩ := exists_byteAt inside
          rw [if_pos inside, byte_eq, drop_eq, Option.bind_eq_bind, Option.bind_some, ih]
          dsimp only
          split
          · rw [Option.map_map]
            congr 2
            funext found
            simp only [Function.comp_apply]
            omega
          · rfl
        · rw [if_neg inside, List.drop_of_length_le (by omega)]
          rfl

theorem length_of_spelled? {keyword text after : Text} {length : Nat}
    (spelled : Word.spelled? keyword text = some (length, after)) :
    length ≤ text.length ∧ after = text.drop length ∧ (keyword ≠ [] → 0 < length) := by
  fun_induction Word.spelled? keyword text generalizing length after with
  | case1 text =>
      cases spelled
      simp
  | case2 letter keyword text blank nothing => cases spelled
  | case3 letter keyword text blank run_ne ih =>
      obtain ⟨⟨inner, rest⟩, found, same⟩ := Option.map_eq_some_iff.mp spelled
      cases same
      obtain ⟨fits, rfl, -⟩ := ih found
      have whole :=
        congrArg List.length (List.takeWhile_append_dropWhile (p := Byte.isSpace) (l := text))
      rw [List.length_append] at whole
      have positive := List.length_pos_of_ne_nil run_ne
      refine ⟨by omega, ?_, fun _ => by omega⟩
      rw [← List.drop_drop, drop_length_takeWhile]
  | case4 letter keyword other => cases spelled
  | case5 letter keyword other byte rest same ih =>
      obtain ⟨⟨inner, after⟩, found, same⟩ := Option.map_eq_some_iff.mp spelled
      cases same
      obtain ⟨fits, rfl, -⟩ := ih found
      exact ⟨by simpa using fits, by simp, fun _ => by omega⟩
  | case6 letter keyword other byte rest differs => cases spelled

/-- Length of the occurrence of a keyword at an index, or zero. -/
def matchWord? (text keyword : Text) (index : Nat) : Option Nat :=
  if keyword = [] ∨ text.length ≤ index then some 0
  else do
    let before ← before? text index
    if before.any Byte.isIdentifier then some 0
    else do
      let found ← spell? text keyword index
      match found with
      | none => some 0
      | some stop => do
          let after ← peek? text stop
          if after.any Byte.isIdentifier then some 0 else minus? stop index

theorem matchWord?_eq (text keyword : Text) (depth index : Nat) :
    matchWord? text keyword index = some (((placed text depth index).word? keyword).getD 0) := by
  by_cases nothing : keyword = [] ∨ text.length ≤ index
  · rw [matchWord?, if_pos nothing, word?, if_pos]
    · rfl
    · rcases nothing with rfl | outside
      · rfl
      · simp [outside]
  · rw [not_or, not_le] at nothing
    have something : (keyword.isEmpty || (placed text depth index).rest.isEmpty) = false := by
      simp [nothing.1, nothing.2]
    rw [matchWord?, if_neg (by simpa using nothing), before?_eq depth nothing.2.le,
      Option.bind_eq_bind, Option.bind_some, word?, something, Bool.false_or, afterIdentifier]
    split
    · rfl
    · rw [spell?_eq, Option.bind_eq_bind, Option.bind_some, rest_placed]
      cases spelled : Word.spelled? keyword (text.drop index) with
      | none => rfl
      | some found =>
          obtain ⟨length, after⟩ := found
          obtain ⟨-, rfl, -⟩ := length_of_spelled? spelled
          simp only [Option.map_some, peek?_eq, Option.bind_some, List.drop_drop]
          split
          · rfl
          · rw [minus?_of_le (by omega), Option.getD_some, Nat.add_sub_cancel_left]

/-- An occurrence of a keyword has a length. -/
theorem word?_pos {keyword : Text} {site : Site} {length : Nat}
    (found : site.word? keyword = some length) :
    0 < length ∧ length ≤ site.rest.length := by
  rw [word?] at found
  split at found
  · cases found
  · rename_i something
    split at found
    · cases found
    · rename_i spelled
      split at found
      · cases found
      · obtain rfl := Option.some_inj.mp found
        obtain ⟨fits, -, positive⟩ := length_of_spelled? spelled
        exact ⟨positive (by rintro rfl; simp at something), fits⟩

end Indexed

/-! ## Code by index -/

namespace Site

open Indexed

variable {text : Text} {depth index stop : Nat} {byte : Byte}

theorem atQuote_placed (depth : Nat) (here : byteAt? text index = some byte) :
    (placed text depth index).atQuote = byte.isQuote := by
  rw [atQuote, byte?_placed, here, Option.any_some]

theorem atParen_placed (depth : Nat) (here : byteAt? text index = some byte) :
    (placed text depth index).atParen = (byte == Byte.openParen || byte == Byte.closeParen) := by
  rw [atParen, byte?_placed, here]
  rfl

theorem lexemes_placed_of_isQuote (here : byteAt? text index = some byte)
    (quote : byte.isQuote = true) :
    (placed text depth index).lexemes = placed text depth index ::
      (placed text depth (index + Literal.width .standard (placed text depth index))).lexemes := by
  have positive := width_pos depth here
  have next_eq : index + 1 + (Literal.width .standard (placed text depth index) - 1) =
      index + Literal.width .standard (placed text depth index) := by omega
  rw [lexemes, tour_placed _ here, lexemeWidth, if_pos ((atQuote_placed depth here).trans quote),
    next_eq, depthAfter_of_flat (Byte.depthless_of_isQuote byte quote), lexemes]

theorem lexemes_placed (here : byteAt? text index = some byte) (plain : byte.isQuote = false) :
    (placed text depth index).lexemes =
      placed text depth index :: (placed text (depthAfter byte depth) (index + 1)).lexemes := by
  rw [lexemes, tour_placed _ here, lexemeWidth, if_neg (by simp [atQuote_placed depth here, plain]),
    lexemes]

theorem code_placed_of_isQuote (here : byteAt? text index = some byte)
    (quote : byte.isQuote = true) :
    (placed text depth index).code =
      (placed text depth (index + Literal.width .standard (placed text depth index))).code := by
  rw [code, lexemes_placed_of_isQuote here quote,
    List.filter_cons_of_neg (by simp [atQuote_placed depth here, quote]), code]

theorem code_placed (here : byteAt? text index = some byte) (plain : byte.isQuote = false) :
    (placed text depth index).code =
      placed text depth index :: (placed text (depthAfter byte depth) (index + 1)).code := by
  rw [code, lexemes_placed here plain,
    List.filter_cons_of_pos (by simp [atQuote_placed depth here, plain]), code]

theorem takeWhile_code_placed (reached : stop ≤ index) :
    (placed text depth index).code.takeWhile (·.offset < stop) = [] := by
  rw [List.takeWhile_eq_nil_iff]
  intro nonempty
  have behind := le_offset_of_mem_code (List.getElem_mem nonempty)
  simpa using reached.trans behind

theorem takeWhile_code_placed_cons (depth : Nat) (here : byteAt? text index = some byte)
    (plain : byte.isQuote = false) (inside : index < stop) :
    (placed text depth index).code.takeWhile (·.offset < stop) = placed text depth index ::
      (placed text (depthAfter byte depth) (index + 1)).code.takeWhile (·.offset < stop) := by
  rw [code_placed here plain, List.takeWhile_cons_of_pos]
  exact decide_eq_true inside

end Site

namespace Indexed

variable {text : Text}

/-- A step of the search for a keyword outside literals and parentheses. -/
def topLevelStep (text keyword : Text) (stop : Nat) :
    Nat × Nat → Option (Step (Nat × Nat) (Option Nat))
  | (index, depth) =>
      if index < stop then do
        let byte ← byteAt? text index
        if byte.isQuote then do
          let next ← skipLiteral? text index
          some (.next (next, depth))
        else if byte == Byte.openParen || byte == Byte.closeParen then
          some (.next (index + 1, depthAfter byte depth))
        else if depth = 0 then do
          let length ← matchWord? text keyword index
          if 0 < length ∧ index + length ≤ stop then some (.done (some index))
          else some (.next (index + 1, depth))
        else some (.next (index + 1, depth))
      else some (.done none)

/-- The occurrence of a keyword at a place counts, since it ends before `stop`. -/
def foundTopLevel (keyword : Text) (stop : Nat) (site : Site) : Bool :=
  site.isTopLevel && (site.word? keyword).any (site.offset + · ≤ stop)

section TopLevel

variable {keyword : Text} {stop index depth : Nat} {byte : Byte}

theorem topLevelStep_of_byteAt? (inside : index < stop) (here : byteAt? text index = some byte)
    (keyword : Text) (depth : Nat) :
    topLevelStep text keyword stop (index, depth) =
      if byte.isQuote then
        some (.next (index + Literal.width .standard (placed text depth index), depth))
      else if foundTopLevel keyword stop (placed text depth index) then some (.done (some index))
      else some (.next (index + 1, depthAfter byte depth)) := by
  simp only [topLevelStep, if_pos inside, here, skipLiteral?_eq depth here,
    matchWord?_eq text keyword depth, Option.bind_eq_bind, Option.bind_some]
  congr 1
  by_cases paren : (byte == Byte.openParen || byte == Byte.closeParen) = true
  · rw [if_pos paren, if_neg]
    simp [foundTopLevel, isTopLevel, atParen_placed depth here, paren]
  rw [if_neg paren, depthAfter_of_flat (by simpa using paren)]
  by_cases outside : depth = 0
  · have found_iff : (0 < ((placed text depth index).word? keyword).getD 0 ∧
        index + ((placed text depth index).word? keyword).getD 0 ≤ stop) ↔
        foundTopLevel keyword stop (placed text depth index) = true := by
      rw [foundTopLevel, isTopLevel, atParen_placed depth here, (Bool.not_eq_true _).mp paren]
      cases found : (placed text depth index).word? keyword with
      | none => simp
      | some length => simp [outside, (word?_pos found).1]
    rw [if_pos outside]
    exact if_congr found_iff rfl rfl
  · rw [if_neg outside, if_neg]
    simp [foundTopLevel, isTopLevel, outside]

/-- Where an occurrence of a keyword counts from a state of the search on. -/
def topLevelFrom (text keyword : Text) (stop : Nat) (state : Nat × Nat) : Option Nat :=
  (((placed text state.2 state.1).code.takeWhile (·.offset < stop)).find?
    (foundTopLevel keyword stop)).map (·.offset)

theorem progress_topLevelStep (text keyword : Text) (within : stop ≤ text.length)
    (state : Nat × Nat) :
    Progress (topLevelStep text keyword stop)
      (fun state result => result = topLevelFrom text keyword stop state)
      (fun state => stop - state.1)
      state (topLevelFrom text keyword stop state) := by
  obtain ⟨index, depth⟩ := state
  by_cases inside : index < stop
  · obtain ⟨byte, byte_eq, -⟩ := exists_byteAt (show index < text.length by omega)
    have step_eq := topLevelStep_of_byteAt? inside byte_eq keyword depth
    cases quote : byte.isQuote with
    | true =>
        have positive := width_pos depth byte_eq
        refine .next _ (step_eq.trans (if_pos quote)) ?_ (by dsimp only; omega)
        rw [topLevelFrom, code_placed_of_isQuote byte_eq quote, topLevelFrom]
    | false =>
        have sites_eq := takeWhile_code_placed_cons depth byte_eq quote inside
        rw [quote, if_neg Bool.false_ne_true] at step_eq
        cases found : foundTopLevel keyword stop (placed text depth index) with
        | true =>
            refine .done (step_eq.trans ((if_pos found).trans ?_))
            rw [topLevelFrom, sites_eq, List.find?_cons_of_pos found]
            rfl
        | false =>
            rw [found, if_neg Bool.false_ne_true] at step_eq
            refine .next _ step_eq ?_ (by dsimp only; omega)
            rw [topLevelFrom, sites_eq, List.find?_cons_of_neg (by simp [found]), topLevelFrom]
  · refine .done ?_
    rw [topLevelStep, if_neg inside, topLevelFrom, takeWhile_code_placed (by omega)]
    rfl

end TopLevel

/-- Offset of the first occurrence of a keyword between two offsets, outside literals and the
parentheses opened after the first. -/
def firstTopLevel? (text keyword : Text) (start stop : Nat) : Option (Option Nat) :=
  let stop := min stop text.length
  loop (topLevelStep text keyword stop) (text.length + 1) (start, 0)

theorem firstTopLevel?_eq (text keyword : Text) (start stop : Nat) :
    firstTopLevel? text keyword start stop =
      some (Word.firstTopLevel? keyword text start stop) := by
  refine loop_eq_answer _ _ (progress_topLevelStep text keyword (Nat.min_le_right _ _)) ?_
  dsimp only
  omega

/-! ## Words and signs beside a place -/

/-- A keyword ends just before an index. -/
def endsAt? (text keyword : Text) (index : Nat) : Option Bool :=
  if keyword.length ≤ index then do
    let start ← minus? index keyword.length
    let length ← matchWord? text keyword start
    some (length == keyword.length)
  else some false

theorem endsAt?_eq {keyword : Text} (keyword_ne : keyword ≠ []) (text : Text) (index : Nat) :
    endsAt? text keyword index = some (Word.endsAt keyword text index) := by
  have length_ne : 0 ≠ keyword.length := (List.length_pos_of_ne_nil keyword_ne).ne
  rw [endsAt?, Word.endsAt]
  by_cases room : keyword.length ≤ index
  · simp only [if_pos room, minus?_of_le room, decide_eq_true room, matchWord?_eq text keyword 0,
      Option.bind_eq_bind, Option.bind_some, Bool.true_and]
    congr 1
    rw [placed_zero]
    cases (atOffset text (index - keyword.length)).word? keyword with
    | none => simpa using length_ne
    | some length => simp
  · rw [if_neg room, decide_eq_false room, Bool.false_and]

/-- An equals sign stands at an index, or after the white space there, and before `stop`. -/
def equalsBefore? (text : Text) (stop index : Nat) : Option Bool := do
  let next ← skip? text Byte.isSpace stop index
  if next < stop then do
    let byte ← byteAt? text next
    some (byte == Byte.equals)
  else some false

theorem equalsBefore?_eq {stop : Nat} (within : stop ≤ text.length) (depth index length : Nat) :
    equalsBefore? text stop (index + length) =
      some ((placed text depth index).equalsBefore stop length) := by
  have run_eq : (Statement.slice text (index + length) stop).takeWhile Byte.isSpace =
      ((text.drop (index + length)).takeWhile Byte.isSpace).take (stop - (index + length)) :=
    takeWhile_take _ _ _
  rw [equalsBefore?, skip?_eq _ within, run_eq, Option.bind_eq_bind, Option.bind_some,
    List.length_take, equalsBefore, rest_placed, offset_placed, List.drop_drop]
  by_cases room :
      index + length + ((text.drop (index + length)).takeWhile Byte.isSpace).length < stop
  · have next_eq : min (stop - (index + length))
        ((text.drop (index + length)).takeWhile Byte.isSpace).length =
          ((text.drop (index + length)).takeWhile Byte.isSpace).length := by omega
    obtain ⟨byte, byte_eq, drop_eq⟩ := exists_byteAt (room.trans_le within)
    rw [next_eq, if_pos room, byte_eq, decide_eq_true room, ← drop_length_takeWhile, List.drop_drop,
      drop_eq]
    rfl
  · rw [if_neg (by omega), decide_eq_false room, Bool.false_and]

end Indexed

end TenantScope
