import TenantScope.Proofs.Aliasing
import TenantScope.Proofs.Cutting
import TenantScope.TableName

/-!
# Taking the name of the database off

The name of a database and the full stop after it are taken off in front of a table name, so the
token before them comes to stand before that name.  Nothing runs on there but a quoted identifier
into another one in the same marks, and the two are read as a single one.
-/

namespace TenantScope

open Text Site Literal

namespace Literal

/-- A literal without escapes runs on into another one in the same marks that follows it
directly. -/
theorem closing?_run_on {mark : Byte} {content other : Text}
    (closed : closing? mark false content = some content.length)
    (other_closed : closing? mark false other = some other.length) :
    closing? mark false (content ++ mark :: other) = some (content ++ mark :: other).length := by
  fun_induction closing? mark false content with
  | case1 => simp at closed
  | case2 => simp at closed
  | case3 => simp_all
  | case4 byte _ marked =>
      obtain rfl : byte = mark := by simpa using marked
      simp [closing?, other_closed]
  | case5 byte _ marked next rest doubled ih =>
      obtain rfl : byte = mark := by simpa using marked
      obtain rfl : next = byte := by simpa using doubled
      have inner := ih (by simpa using closed)
      rw [List.cons_append, List.cons_append, closing?, if_neg (by simp), if_pos (by simp)]
      simp [inner]
  | case6 => simp at closed
  | case7 byte rest _ unmarked ih =>
      have inner := ih (by simpa using closed)
      rw [List.cons_append, closing?_cons (by simpa using unmarked) (by simp), inner]
      simp

end Literal

namespace Token

/-! ## Literals that run on -/

/-- Tokens are read as they are written after another one, or they begin with a quoted identifier
and the other one, quoted in the same marks, runs on into it. -/
inductive Attaches (previous : Option Token) (tokens : List Token) : Prop
  | apart (lexed : Lexed previous tokens)
  | runsOn {mark : Byte} {content : Text} {rest : List Token} (identifier : mark ≠ Byte.apostrophe)
      (same : previous.any (isMarked mark) = true) (begins : tokens = literal mark content :: rest)
      (lexed : Lexed none tokens)

/-- What may stand after a literal may stand after any other one in the same marks. -/
theorem lexed_literal {mark : Byte} {content other : Text} {tokens : List Token}
    (lexed : Lexed (some (literal mark content)) tokens) :
    Lexed (some (literal mark other)) tokens := by
  cases tokens with
  | nil => trivial
  | cons token tokens =>
      refine ⟨⟨rfl, ?_⟩, lexed.2⟩
      have follows := lexed.1.2
      cases token <;> exact follows

/-- What is left of tokens without the names of the database and the full stops after them: a quoted
identifier runs on into one in the same marks that comes to follow it. -/
inductive Unqualified (database : Text) : List Token → List Token → Prop
  | nil : Unqualified database [] []
  | kept {tokens others : List Token} (token : Token) (less : Unqualified database tokens others) :
      Unqualified database (token :: tokens) (token :: others)
  | joined {tokens others : List Token} {mark : Byte} {content other : Text}
      (quote : mark.isQuote = true) (identifier : mark ≠ Byte.apostrophe)
      (ends : content.getLast? = some mark)
      (less : Unqualified database tokens (literal mark other :: others)) :
      Unqualified database (literal mark content :: tokens)
        (literal mark (content ++ mark :: other) :: others)
  | taken {tokens others : List Token} {written : Text} (named : lower written = lower database)
      (begins : (spell others).head?.any
        (fun first => first.isIdentifier || TableName.isMark first) = true)
      (less : Unqualified database tokens others) :
      Unqualified database (word written :: byte Byte.dot :: tokens) others

/-- No parentheses are taken off. -/
theorem Unqualified.parens_eq {database : Text} {tokens others : List Token}
    (unqualified : Unqualified database tokens others) : parens others = parens tokens := by
  induction unqualified with
  | nil => rfl
  | kept token _ ih =>
      rw [parens, parens, List.filterMap_cons, List.filterMap_cons, ← parens, ← parens, ih]
  | joined _ _ _ _ ih => exact ih
  | taken _ _ _ ih => exact ih

/-- A token in front of tokens that attach to it makes tokens that are read as they are written. -/
theorem Attaches.exists_cons {database : Text} {previous : Option Token} {token : Token}
    {original tokens : List Token} (attaches : Attaches (some token) tokens)
    (joins : Joins previous token) (whole : Whole (token :: tokens))
    (less : Unqualified database original tokens) :
    ∃ others, Lexed previous others ∧ spell others = token.bytes ++ spell tokens ∧ Whole others ∧
      Unqualified database (token :: original) others := by
  cases attaches with
  | apart lexed => exact ⟨token :: tokens, ⟨joins, lexed⟩, rfl, whole, .kept token less⟩
  | @runsOn mark content rest identifier same begins lexed =>
      subst begins
      cases token with
      | literal other front =>
          obtain rfl : other = mark := by simpa [isMarked] using same
          obtain ⟨unfinished, quote, fresh, closed⟩ := joins
          obtain ⟨⟨-, -, -, next_closed⟩, lexed⟩ := lexed
          have plain (previous : Option Token) : escapes previous other = false := by
            simp [escapes, identifier]
          rw [plain] at closed next_closed
          have ends := getLast?_of_closing? closed
          refine ⟨literal other (front ++ other :: content) :: rest,
            ⟨⟨unfinished, quote, fresh, ?_⟩, lexed_literal lexed⟩, by
              simp [bytes], ?_, .joined quote identifier ends less⟩
          · rw [plain]
            exact closing?_run_on closed next_closed
          · simpa [Whole, isRemnant] using whole
      | word written => simp [isMarked] at same
      | byte plain => simp [isMarked] at same
      | remnant other front => simp [isMarked] at same

/-- Where a name begins behind a full stop, its tokens attach to any token but a word. -/
theorem attaches_of_name {previous : Option Token} {tokens : List Token}
    (unfinished : previous.any isRemnant = false) (wordless : previous.any isWord = false)
    (lexed : Lexed (some (byte Byte.dot)) tokens) (whole : Whole tokens)
    (named : (spell tokens).head? ≠ some Byte.apostrophe) : Attaches previous tokens := by
  cases tokens with
  | nil => exact .apart trivial
  | cons token tokens =>
      obtain ⟨⟨-, follows⟩, lexed⟩ := lexed
      cases token with
      | word written => exact .apart ⟨⟨unfinished, follows.1, wordless⟩, lexed⟩
      | byte plain => exact .apart ⟨⟨unfinished, follows⟩, lexed⟩
      | remnant mark content => exact absurd (whole _ List.mem_cons_self) (by simp [isRemnant])
      | literal mark content =>
          have identifier : mark ≠ Byte.apostrophe := by simpa [bytes] using named
          have closed := follows.2.2
          have plain (previous : Option Token) : escapes previous mark = false := by
            simp [escapes, identifier]
          rw [plain] at closed
          cases same : previous.any (isMarked mark) with
          | false => exact .apart ⟨⟨unfinished, follows.1, same, by rw [plain, closed]⟩, lexed⟩
          | true =>
              exact .runsOn identifier same rfl ⟨⟨rfl, follows.1, rfl, by rw [plain, closed]⟩,
                lexed⟩

/-- A full stop is a token of its own. -/
theorem exists_of_spell_dot {previous : Option Token} {tokens : List Token} {rest : Text}
    (lexed : Lexed previous tokens) (spelled : spell tokens = Byte.dot :: rest) :
    ∃ others, tokens = byte Byte.dot :: others := by
  cases tokens with
  | nil => cases spelled
  | cons token tokens =>
      have follows := lexed.1.2
      have head := congrArg List.head? spelled
      cases token with
      | byte plain =>
          obtain rfl : plain = Byte.dot := by simpa [bytes] using head
          exact ⟨tokens, rfl⟩
      | word written =>
          obtain ⟨letter, written, rfl⟩ := List.exists_cons_of_ne_nil follows.1.nonempty
          obtain rfl : letter = Byte.dot := by simpa [bytes] using head
          exact absurd (follows.1.identifiers Byte.dot List.mem_cons_self) (by decide)
      | literal mark content =>
          obtain rfl : mark = Byte.dot := by simpa [bytes] using head
          exact absurd follows.1 (by decide)
      | remnant mark content =>
          obtain rfl : mark = Byte.dot := by simpa [bytes] using head
          exact absurd follows.1 (by decide)

end Token

namespace TableName

/-! ## Names of the database -/

section Units

variable {database back rest unit written : Text}

/-- From a place on, the text `written` is left. -/
def Leaves (database back rest written : Text) : Prop :=
  ∀ offset depth, ((Site.mk back rest offset depth).tour (unqualifyingWidth database)).flatMap
    (fun site => if isQualifiedBy database site then []
      else site.rest.take (site.lexemeWidth .standard)) = written

theorem leaves_nil : Leaves database back [] [] := fun _ _ => rfl

/-- A unit that is no name of the database is left as it is. -/
theorem leaves_unit (nonempty : unit ≠ [])
    (free : ∀ offset depth, isQualifiedBy database ⟨back, unit ++ rest, offset, depth⟩ = false)
    (lexeme : ∀ offset depth,
      lexemeWidth .standard ⟨back, unit ++ rest, offset, depth⟩ = unit.length)
    (leaves : Leaves database (unit.reverse ++ back) rest written) :
    Leaves database back (unit ++ rest) (unit ++ written) := by
  intro offset depth
  obtain ⟨level, tour_eq⟩ := @tour_unit
    (unqualifyingWidth database) back _ rest offset depth nonempty
    (by rw [unqualifyingWidth, free, if_neg Bool.false_ne_true, lexeme])
  rw [tour_eq, List.flatMap_cons, free, if_neg Bool.false_ne_true, lexeme, List.take_left, leaves]

/-- A name of the database is taken off with its full stop. -/
theorem leaves_name (lower_eq : lower unit = lower database)
    (qualified : ∀ offset depth,
      isQualifiedBy database ⟨back, unit ++ Byte.dot :: rest, offset, depth⟩ = true)
    (leaves : Leaves database (Byte.dot :: (unit.reverse ++ back)) rest written) :
    Leaves database back (unit ++ Byte.dot :: rest) written := by
  have length_eq : (unit ++ [Byte.dot]).length = database.length + 1 := by
    rw [List.length_append, ← length_lower unit, lower_eq, length_lower, List.length_singleton]
  rw [List.append_cons] at qualified ⊢
  intro offset depth
  obtain ⟨level, tour_eq⟩ := @tour_unit (unqualifyingWidth database) back _ rest offset depth
    (List.ne_nil_of_length_eq_add_one length_eq)
    (by rw [unqualifyingWidth, qualified, if_pos rfl, length_eq])
  rw [List.reverse_append] at tour_eq
  rw [tour_eq, List.flatMap_cons, qualified, if_pos rfl, List.nil_append]
  exact leaves _ _

/-- The rest of a word is left as it is. -/
theorem leaves_inside (identifiers : ∀ byte ∈ unit, byte.isIdentifier = true)
    (inside : back.head?.any Byte.isIdentifier = true)
    (leaves : Leaves database (unit.reverse ++ back) rest written) :
    Leaves database back (unit ++ rest) (unit ++ written) := by
  induction unit generalizing back with
  | nil => simpa using leaves
  | cons byte unit ih =>
      have identifier := identifiers byte List.mem_cons_self
      have unquoted := Byte.isQuote_of_isIdentifier byte identifier
      have tail := @ih (byte :: back)
        (fun other member => identifiers other (List.mem_cons_of_mem _ member))
        (by simpa using identifier) (by simpa using leaves)
      refine @leaves_unit _ _ (unit ++ rest) [byte] _ (by simp) (fun _ _ => ?_)
        (fun _ _ => lexemeWidth_code _ _ _ _ _ unquoted) tail
      simp [isQualifiedBy, afterIdentifier, previous?, inside]

/-- A word that is no name of the database is left as it is. -/
theorem leaves_word (is_name : IsName unit)
    (free : ∀ offset depth, isQualifiedBy database ⟨back, unit ++ rest, offset, depth⟩ = false)
    (leaves : Leaves database (unit.reverse ++ back) rest written) :
    Leaves database back (unit ++ rest) (unit ++ written) := by
  obtain ⟨letter, unit, rfl⟩ := List.exists_cons_of_ne_nil is_name.nonempty
  have identifier := is_name.identifiers letter List.mem_cons_self
  have unquoted := Byte.isQuote_of_isIdentifier letter identifier
  have inside : (letter :: back).head?.any Byte.isIdentifier = true := by simpa using identifier
  rw [List.reverse_cons, List.append_assoc, List.singleton_append] at leaves
  have tail := leaves_inside
    (fun byte member => is_name.identifiers byte (List.mem_cons_of_mem _ member)) inside leaves
  exact @leaves_unit _ _ (unit ++ rest) [letter] _ (by simp) free
    (fun _ _ => lexemeWidth_code _ _ _ _ _ unquoted) tail

/-- Behind a full stop nothing is taken off. -/
theorem head?_of_leaves {byte : Byte}
    (leaves : Leaves database (Byte.dot :: back) (byte :: rest) written) :
    written.head? = some byte := by
  have free : isQualifiedBy database ⟨Byte.dot :: back, byte :: rest, 0, 0⟩ = false := by
    simp [isQualifiedBy, afterDot, previous?]
  have positive : 0 < lexemeWidth .standard ⟨Byte.dot :: back, byte :: rest, 0, 0⟩ := by
    rw [lexemeWidth, width]
    split
    · dsimp only
      split <;> omega
    · omega
  rw [← leaves 0 0, tour, walk, List.flatMap_cons, free, if_neg Bool.false_ne_true]
  obtain ⟨width, width_eq⟩ := Nat.exists_eq_add_of_lt positive
  rw [width_eq, Nat.zero_add, List.take_succ_cons, List.cons_append]
  rfl

/-- A text that differs from a name in case at most has bytes of words only. -/
theorem isIdentifier_of_lower_eq (name : IsName database) (lower_eq : lower unit = lower database) :
    ∀ byte ∈ unit, byte.isIdentifier = true := by
  have same_class : ∀ byte : Byte, byte.toLower.isIdentifier = byte.isIdentifier := by
    decide +kernel
  intro byte member
  have lowered : byte.toLower ∈ lower database := lower_eq ▸ List.mem_map_of_mem member
  obtain ⟨other, other_mem, other_eq⟩ := List.mem_map.mp lowered
  rw [← same_class, ← other_eq, same_class]
  exact name.identifiers other other_mem

/-- No name of the database begins with a byte outside words. -/
theorem isQualifiedBy_of_plain (name : IsName database) {first : Byte}
    (identifier : first.isIdentifier = false) (offset depth : Nat) :
    isQualifiedBy database ⟨back, first :: rest, offset, depth⟩ = false := by
  refine Bool.eq_false_iff.mpr fun qualified => ?_
  simp only [isQualifiedBy, Bool.and_eq_true, beq_iff_eq] at qualified
  obtain ⟨length, length_eq⟩ := Nat.exists_eq_succ_of_ne_zero
    (fun empty => name.nonempty (List.length_eq_zero_iff.mp empty))
  have member : first ∈ (first :: rest).take database.length := by simp [length_eq]
  simp [isIdentifier_of_lower_eq name qualified.1.2 first member] at identifier

open Token in
/-- A text with a token in front that is no word is left with the token in front. -/
theorem leaves_token (name : IsName database) {previous : Option Token} {token : Token}
    {tokens : List Token} (after : After back previous) (lexed : Lexed previous (token :: tokens))
    (wordless : token.isWord = false)
    (leaves : Leaves database (token.bytes.reverse ++ back) (Token.spell tokens) written) :
    Leaves database back (token.bytes ++ Token.spell tokens) (token.bytes ++ written) := by
  obtain ⟨first, others, bytes_eq, identifier⟩ := exists_bytes_cons lexed.1.2 wordless
  refine leaves_unit (bytes_ne_nil lexed.1.2) (fun offset depth => ?_)
    (after.lexemeWidth_token lexed wordless) leaves
  rw [bytes_eq, List.cons_append]
  exact isQualifiedBy_of_plain name identifier offset depth

/-- A name of the database is a whole word with a full stop and a name after it. -/
theorem exists_of_isQualifiedBy (name : IsName database) (is_name : IsName unit)
    (ends : rest.head?.any Byte.isIdentifier = false) {offset depth : Nat}
    (qualified : isQualifiedBy database ⟨back, unit ++ rest, offset, depth⟩ = true) :
    lower unit = lower database ∧
      ∃ next after, rest = Byte.dot :: next :: after ∧
        (next.isIdentifier || isMark next) = true := by
  simp only [isQualifiedBy, Bool.and_eq_true, beq_iff_eq] at qualified
  obtain ⟨⟨-, lower_eq⟩, follows⟩ := qualified
  split at follows
  · rename_i stop next after drop_eq
    obtain ⟨is_dot, named⟩ := Bool.and_eq_true_iff.mp follows
    obtain rfl : stop = Byte.dot := beq_iff_eq.mp is_dot
    have identifiers := isIdentifier_of_lower_eq name lower_eq
    -- The bytes of the name make up the whole word, since a full stop ends both.
    have words : unit = (unit ++ rest).take database.length := by
      have ended : ((unit ++ rest).drop database.length).head?.any Byte.isIdentifier = false := by
        rw [drop_eq]
        exact (by decide : Byte.dot.isIdentifier = false)
      rw [← takeWhile_isIdentifier_append identifiers ended, List.take_append_drop,
        takeWhile_isIdentifier_append is_name.identifiers ends]
    have length_eq : unit.length = database.length := by
      have total := congrArg List.length lower_eq
      rwa [length_lower, length_lower, ← words] at total
    rw [← length_eq, List.drop_left] at drop_eq
    exact ⟨words ▸ lower_eq, next, after, drop_eq, named⟩
  · cases follows

/-- A name begins with no apostrophe. -/
theorem unquoted_of_named : ∀ byte : Byte, (byte.isIdentifier || isMark byte) = true →
    byte ≠ Byte.apostrophe := by
  decide +kernel

open Token in
/-- What is left of a text is spelled by tokens again, and no literal is left open. -/
theorem exists_leaves (name : IsName database) {previous : Option Token} {tokens : List Token}
    (after : After back previous) (lexed : Lexed previous tokens) (whole : Whole tokens) :
    ∃ others, Leaves database back (spell tokens) (spell others) ∧ Attaches previous others ∧
      Whole others ∧ Unqualified database tokens others := by
  induction length_eq : tokens.length using Nat.strong_induction_on generalizing
    back previous tokens with
  | h length ih =>
  cases tokens with
  | nil => exact ⟨[], leaves_nil, .apart trivial, whole, .nil⟩
  | cons token tokens =>
      obtain ⟨joins, lexed⟩ := lexed
      have whole_tokens := (List.forall_mem_cons.mp whole).2
      rw [List.length_cons] at length_eq
      -- A token that is no name of the database stays in front of what is left of the others.
      have kept (leaves : ∀ written,
          Leaves database (token.bytes.reverse ++ back) (spell tokens) written →
          Leaves database back (token.bytes ++ spell tokens) (token.bytes ++ written)) :
          ∃ others, Leaves database back (spell (token :: tokens)) (spell others) ∧
            Attaches previous others ∧ Whole others ∧
            Unqualified database (token :: tokens) others := by
        have whole_token := (List.forall_mem_cons.mp whole).1
        obtain ⟨others, left, attaches, whole_others, less⟩ :=
          ih tokens.length (by omega) (after.of_token joins.2 whole_token) lexed whole_tokens rfl
        obtain ⟨result, result_lexed, spelled, result_whole, result_less⟩ :=
          attaches.exists_cons joins (List.forall_mem_cons.mpr ⟨whole_token, whole_others⟩) less
        refine ⟨result, ?_, .apart result_lexed, result_whole, result_less⟩
        rw [spelled]
        exact leaves _ left
      have unit_kept (wordless : token.isWord = false) :=
        kept fun _ => leaves_token name after ⟨joins, lexed⟩ wordless
      cases token with
      | word written =>
          cases qualified : isQualifiedBy database ⟨back, written ++ spell tokens, 0, 0⟩ with
          | false => exact kept fun _ => leaves_word joins.2.1 fun _ _ => qualified
          | true =>
              obtain ⟨lower_eq, first, rest, rest_eq, named⟩ :=
                exists_of_isQualifiedBy name joins.2.1 (head?_spell_of_word lexed) qualified
              obtain ⟨tokens, rfl⟩ := exists_of_spell_dot lexed rest_eq
              have behind := After.of_plain (written.reverse ++ back) lexed.1.2.1
                (.byte Byte.dot) rfl
              have spelled : spell tokens = first :: rest := by simpa [bytes] using rest_eq
              obtain ⟨others, left, attaches, whole_others, less⟩ :=
                ih tokens.length (by rw [List.length_cons] at length_eq; omega) behind lexed.2
                  (List.forall_mem_cons.mp whole_tokens).2 rfl
              have left_lexed : Lexed (some (.byte Byte.dot)) others := by
                cases attaches with
                | apart lexed => exact lexed
                | runsOn _ same => simp [isMarked] at same
              have begins : (spell others).head? = some first := head?_of_leaves (spelled ▸ left)
              refine ⟨others, ?_, attaches_of_name joins.1 joins.2.2 left_lexed whole_others ?_,
                whole_others, .taken lower_eq (by simpa [begins] using named) less⟩
              · exact leaves_name lower_eq (fun _ _ => qualified) left
              · rw [begins]
                exact fun same => unquoted_of_named first named (Option.some.inj same)
      | byte plain => exact unit_kept rfl
      | literal mark content => exact unit_kept rfl
      | remnant mark content => exact absurd (whole _ List.mem_cons_self) (by simp [isRemnant])

end Units

open Token in
/-- A text without the names of the database is spelled by what is left of its tokens. -/
theorem exists_unqualified {database text : Text} (name : IsName database)
    (closed : Closed (start text)) :
    ∃ tokens others, Lexed none tokens ∧ spell tokens = text ∧ Lexed none others ∧ Whole others ∧
      unqualify database text = spell others ∧ Unqualified database tokens others := by
  obtain ⟨tokens, lexed, rfl⟩ := exists_lexed text
  obtain ⟨others, left, attaches, whole, less⟩ :=
    exists_leaves name After.nil lexed ((closed_start_spell lexed).mp closed)
  have left_lexed : Lexed none others := by
    cases attaches with
    | apart lexed => exact lexed
    | runsOn _ _ _ lexed => exact lexed
  refine ⟨tokens, others, lexed, rfl, left_lexed, whole, ?_, less⟩
  rw [unqualify, if_neg (by simpa using name.nonempty), start, left]

open Token in
/-- A text without the names of the database is as well formed as it was with them. -/
theorem wellformed_unqualify {database text : Text}
    (identifiers : ∀ byte ∈ database, byte.isIdentifier = true) (whole : Wellformed text) :
    Wellformed (unqualify database text) := by
  by_cases nonempty : database = []
  · rw [unqualify, if_pos (by simp [nonempty])]
    exact whole
  · obtain ⟨tokens, others, lexed, rfl, left_lexed, whole_others, left, less⟩ :=
      exists_unqualified ⟨nonempty, identifiers⟩ whole.closed
    rw [left]
    exact ⟨(closed_start_spell left_lexed).mpr whole_others, (balanced_spell left_lexed).mpr
      (less.parens_eq.symm ▸ (balanced_spell lexed).mp whole.balanced)⟩

end TableName

end TenantScope
