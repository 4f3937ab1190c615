import TenantScope.Proofs.Conjuncts
import TenantScope.Proofs.Moving
import TenantScope.Proofs.Renaming

/-!
# Aliases of columns

The search for compared columns visits the tokens of a region one after another, so what it
writes is spelled by the renamed tokens of the region, and a literal that is never closed
is written to its end.
-/

namespace TenantScope

open Text Site Literal

/-! ## What comes before a place -/

/-- The place some bytes before another in a text that is split there. -/
theorem Site.atOffset_append (back rest : Text) {count : Nat} (fits : count ≤ back.length) :
    Site.atOffset (back.reverse ++ rest) (back.length - count) =
      ⟨back.drop count, (back.take count).reverse ++ rest, back.length - count, 0⟩ := by
  have within : back.length - count ≤ back.reverse.length := by simp
  rw [Site.atOffset, List.take_append_of_le_length within, List.drop_append_of_le_length within,
    List.take_reverse, List.drop_reverse, List.reverse_reverse, Nat.sub_sub_self fits]

/-- A keyword ends at an offset where it is the last word before it. -/
theorem Word.endsAt_append {name : Text} (is_name : IsName name) {back rest : Text}
    (ends : back.head?.any Byte.isIdentifier = true → rest.head?.any Byte.isIdentifier = false) :
    Word.endsAt name (back.reverse ++ rest) back.length = true ↔
      upper (back.takeWhile Byte.isIdentifier).reverse = name := by
  rw [Scope.endsAt_iff is_name]
  constructor
  · rintro ⟨fits, spoken_eq⟩
    rw [Site.atOffset_append back rest fits] at spoken_eq
    have begins := (exists_of_spoken_ne (spoken_eq ▸ is_name.nonempty)).1
    rw [spoken, begins, if_neg Bool.false_ne_true] at spoken_eq
    have length_eq :
        (((back.take name.length).reverse ++ rest).takeWhile Byte.isIdentifier).length =
        (back.take name.length).reverse.length := by
      have total := congrArg List.length spoken_eq
      rw [length_upper] at total
      rw [total, List.length_reverse, List.length_take, Nat.min_eq_left fits]
    have written := List.prefix_iff_eq_take.mp (List.takeWhile_prefix Byte.isIdentifier
      (l := (back.take name.length).reverse ++ rest))
    rw [length_eq, List.take_left] at written
    have identifiers : ∀ byte ∈ back.take name.length, byte.isIdentifier = true :=
      fun byte member => List.mem_takeWhile_imp
        (written.symm ▸ List.mem_reverse.mpr member :
          byte ∈ ((back.take name.length).reverse ++ rest).takeWhile Byte.isIdentifier)
    have last : back.takeWhile Byte.isIdentifier = back.take name.length := by
      conv => lhs; rw [← List.take_append_drop name.length back]
      exact takeWhile_isIdentifier_append identifiers begins
    rw [last, ← written]
    exact spoken_eq
  · intro written
    have split := List.takeWhile_append_dropWhile (p := Byte.isIdentifier) (l := back)
    have length_eq : name.length = (back.takeWhile Byte.isIdentifier).length := by
      rw [← written, length_upper, List.length_reverse]
    have fits : name.length ≤ back.length := by
      rw [length_eq]
      exact (List.takeWhile_sublist _).length_le
    have dropped : back.drop name.length = back.dropWhile Byte.isIdentifier := by
      conv => lhs; rw [← split, length_eq, List.drop_left]
    have taken : back.take name.length = back.takeWhile Byte.isIdentifier := by
      conv => lhs; rw [← split, length_eq, List.take_left]
    have word : back.head?.any Byte.isIdentifier = true := by
      cases back with
      | nil => exact absurd written.symm is_name.nonempty
      | cons byte back =>
          refine Bool.of_not_eq_false fun plain => is_name.nonempty ?_
          rw [← written, List.takeWhile_cons_of_neg (by simpa using plain)]
          rfl
    refine ⟨fits, ?_⟩
    rw [Site.atOffset_append back rest fits, spoken, dropped, taken,
      if_neg (by simp [afterIdentifier, previous?, head?_dropWhile_isIdentifier]),
      takeWhile_isIdentifier_append _ (ends word), written]
    exact fun byte member => List.mem_takeWhile_imp (List.mem_reverse.mp member)

namespace Token

/-- A condition begins after the bytes `back`, nearest first, and white space. -/
def introduced (back : Text) : Bool :=
  introduces ((back.dropWhile Byte.isSpace).takeWhile Byte.isIdentifier).reverse

theorem introduced_word {written back : Text} (name : IsName written)
    (begins : back.head?.any Byte.isIdentifier = false) :
    introduced (written.reverse ++ back) = introduces written := by
  have identifiers : ∀ byte ∈ written.reverse, byte.isIdentifier = true := fun byte member =>
    name.identifiers byte (List.mem_reverse.mp member)
  have visible : (written.reverse ++ back).dropWhile Byte.isSpace = written.reverse ++ back := by
    obtain ⟨letter, others, reverse_eq⟩ := List.exists_cons_of_ne_nil
      (show written.reverse ≠ [] by simpa using name.nonempty)
    have identifier := identifiers letter (by simp [reverse_eq])
    rw [reverse_eq, List.cons_append, List.dropWhile_cons_of_neg
      (by simp [Byte.isSpace_of_isIdentifier letter identifier])]
  rw [introduced, visible, takeWhile_isIdentifier_append identifiers begins, List.reverse_reverse]

theorem introduced_plain {plain : Byte} (identifier : plain.isIdentifier = false) (back : Text) :
    introduced (plain :: back) = (introduced back && plain.isSpace) := by
  cases space : plain.isSpace with
  | true => rw [introduced, List.dropWhile_cons_of_pos space, Bool.and_true, introduced]
  | false =>
      rw [introduced, List.dropWhile_cons_of_neg (by simp [space]),
        List.takeWhile_cons_of_neg (by simp [identifier])]
      simp [introduces]
      decide

/-- A full stop introduces nothing. -/
theorem introduced_of_afterDot {back rest : Text} {offset depth : Nat}
    (dotted : afterDot ⟨back, rest, offset, depth⟩ = true) : introduced back = false := by
  cases back with
  | nil => simp [afterDot, previous?] at dotted
  | cons byte back =>
      obtain rfl : byte = Byte.dot := by simpa [afterDot, previous?] using dotted
      rw [introduced_plain (by decide)]
      exact Bool.and_false _

theorem introduced_literal {mark : Byte} {content : Text} {escapes : Bool}
    (quote : mark.isQuote = true) (closed : closing? mark escapes content = some content.length)
    (back : Text) :
    introduced (content.reverse ++ mark :: back) = false := by
  have last := getLast?_of_closing? closed
  obtain ⟨front, rfl⟩ := List.getLast?_eq_some_iff.mp last
  rw [List.reverse_append, List.reverse_singleton, List.append_assoc, List.singleton_append,
    introduced_plain (Byte.isIdentifier_of_isQuote mark quote), Byte.isSpace_of_isQuote mark quote,
    Bool.and_false]

theorem followsConjunction_eq {back rest : Text} {depth : Nat}
    (begins : back.head?.any Byte.isIdentifier = false) :
    Repair.followsConjunction (back.reverse ++ rest) ⟨back, rest, back.length, depth⟩ =
      introduced back := by
  have split := List.takeWhile_append_dropWhile (p := Byte.isSpace) (l := back)
  have length_eq : back.length - (back.takeWhile Byte.isSpace).length =
      (back.dropWhile Byte.isSpace).length := by
    have total := congrArg List.length split
    rw [List.length_append] at total
    omega
  have ends {name : Text} (is_name : IsName name) :
      Word.endsAt name (back.reverse ++ rest) (back.dropWhile Byte.isSpace).length =
        (upper ((back.dropWhile Byte.isSpace).takeWhile Byte.isIdentifier).reverse == name) := by
    have text_eq : back.reverse ++ rest = (back.dropWhile Byte.isSpace).reverse ++
        ((back.takeWhile Byte.isSpace).reverse ++ rest) := by
      rw [← List.append_assoc, ← List.reverse_append, split]
    rw [text_eq, Bool.eq_iff_iff, beq_iff_eq]
    refine Word.endsAt_append is_name fun word => ?_
    cases blanks : (back.takeWhile Byte.isSpace).reverse with
    | nil =>
        rw [List.reverse_eq_nil_iff] at blanks
        rw [blanks, List.nil_append] at split
        rw [split, begins] at word
        cases word
    | cons space blanks =>
        have blank : space ∈ back.takeWhile Byte.isSpace := List.mem_reverse.mp (by simp [blanks])
        simp [Byte.isIdentifier_of_isSpace space (List.mem_takeWhile_imp blank)]
  rw [Repair.followsConjunction, length_eq, ends (by decide), ends (by decide)]
  rfl

/-! ## Reading comparisons -/

/-- A region that begins at `offset` with the tokens ends at `stop`, or inside the literal
that is never closed. -/
def Reaches (stop : Nat) : (offset : Nat) → List Token → Prop
  | offset, [] => offset = stop
  | offset, remnant _ content :: _ => offset < stop ∧ stop ≤ offset + (content.length + 1)
  | offset, token :: tokens => Reaches stop (offset + token.bytes.length) tokens

theorem Reaches.le {stop offset : Nat} {tokens : List Token}
    (reaches : Reaches stop offset tokens) :
    offset ≤ stop := by
  induction tokens generalizing offset with
  | nil => exact Nat.le_of_eq reaches
  | cons token tokens ih =>
      cases token with
      | remnant mark content => exact reaches.1.le
      | _ => exact (Nat.le_add_right _ _).trans (ih reaches)

theorem Reaches.lt {stop offset : Nat} {previous : Option Token} {token : Token}
    {tokens : List Token} (follows : Follows previous token)
    (reaches : Reaches stop offset (token :: tokens)) : offset < stop := by
  have positive := List.length_pos_iff.mpr (bytes_ne_nil follows)
  cases token with
  | remnant mark content => exact reaches.1
  | _ => exact (Nat.lt_add_of_pos_right positive).trans_le (@Reaches.le _ _ tokens reaches)

/-- An equals sign comes next, before the end of the region. -/
theorem comparedNext_spell {stop offset : Nat} {previous : Option Token}
    {tokens others : List Token} (lexed : Lexed previous (tokens ++ others))
    (reaches : Reaches stop offset tokens) :
    (decide (offset + ((spell (tokens ++ others)).takeWhile Byte.isSpace).length < stop) &&
        ((spell (tokens ++ others)).dropWhile Byte.isSpace).head? == some Byte.equals) =
      comparedNext tokens := by
  induction tokens generalizing offset previous with
  | nil =>
      have bound : ¬ offset + ((spell ([] ++ others)).takeWhile Byte.isSpace).length < stop := by
        rw [Reaches] at reaches
        omega
      rw [decide_eq_false bound]
      rfl
  | cons token tokens ih =>
      have before := reaches.lt lexed.1.2
      have follows := lexed.1.2
      have other {first : Byte} (visible : first.isSpace = false) (rest : Text) :
          (decide (offset + ((first :: rest).takeWhile Byte.isSpace).length < stop) &&
            ((first :: rest).dropWhile Byte.isSpace).head? == some Byte.equals) =
              (first == Byte.equals) := by
        rw [List.takeWhile_cons_of_neg (by simp [visible]), List.dropWhile_cons_of_neg
          (by simp [visible]), List.length_nil, Nat.add_zero, decide_eq_true before, Bool.true_and]
        rfl
      have unequal {mark : Byte} (quote : mark.isQuote = true) :
          mark.isSpace = false ∧ (mark == Byte.equals) = false := by
        refine ⟨Byte.isSpace_of_isQuote mark quote, Bool.eq_false_iff.mpr fun same => ?_⟩
        rw [beq_iff_eq] at same
        subst same
        exact absurd quote (by decide)
      rw [List.cons_append, spell_cons]
      cases token with
      | word written =>
          obtain ⟨letter, written, rfl⟩ := List.exists_cons_of_ne_nil follows.1.nonempty
          have identifier := follows.1.identifiers letter (by simp)
          have apart : (letter == Byte.equals) = false := Bool.eq_false_iff.mpr fun same => by
            rw [beq_iff_eq] at same
            subst same
            exact absurd identifier (by decide)
          rw [bytes, List.cons_append, other (Byte.isSpace_of_isIdentifier letter identifier),
            apart]
          rfl
      | byte plain =>
          rw [bytes, List.singleton_append, comparedNext]
          cases space : plain.isSpace with
          | false => rw [other space, if_neg Bool.false_ne_true]
          | true =>
              rw [List.takeWhile_cons_of_pos space, List.dropWhile_cons_of_pos space,
                List.length_cons, if_pos rfl, ← ih lexed.2 reaches]
              simp [bytes, Nat.add_assoc, Nat.add_comm 1]
      | literal mark content =>
          rw [bytes, List.cons_append, other (unequal follows.1).1, (unequal follows.1).2]
          rfl
      | remnant mark content =>
          rw [bytes, List.cons_append, other (unequal follows.1).1, (unequal follows.1).2]
          rfl

end Token

/-- A tour visits a unit and then the rest. -/
theorem Site.tour_unit {width : Site → Nat} {back unit rest : Text} {offset depth : Nat}
    (nonempty : unit ≠ [])
    (width_eq : width ⟨back, unit ++ rest, offset, depth⟩ = unit.length) :
    ∃ level, tour width ⟨back, unit ++ rest, offset, depth⟩ = ⟨back, unit ++ rest, offset, depth⟩ ::
      tour width ⟨unit.reverse ++ back, rest, offset + unit.length, level⟩ := by
  obtain ⟨byte, unit, rfl⟩ := List.exists_cons_of_ne_nil nonempty
  refine ⟨depthAfter byte depth, ?_⟩
  rw [List.cons_append] at width_eq ⊢
  rw [tour, walk, width_eq, walk_skip]
  simp [tour, Nat.add_assoc, Nat.add_comm 1]

namespace Repair

section Writes

variable (text column replacement : Text) (stop : Nat)

/-- The units of a text up to `stop` from a place on. -/
def unitsFrom (site : Site) : List Site :=
  (site.tour (comparingWidth text column stop)).takeWhile (·.offset < stop)

/-- From a place on, the text `written` is written for the units up to `stop`, and `hit` tells
whether one of them is a compared column. -/
def Writes (back rest written : Text) (hit : Bool) : Prop :=
  ∀ depth, (unitsFrom text column stop ⟨back, rest, back.length, depth⟩).flatMap
      (renamedUnit text column replacement stop) = written ∧
    ((unitsFrom text column stop ⟨back, rest, back.length, depth⟩).any fun site =>
      (comparedColumn? text column stop site).isSome) = hit

variable {text column replacement stop} {back rest written unit : Text} {hit : Bool}

theorem writes_stop (reached : stop ≤ back.length) :
    Writes text column replacement stop back rest [] false := by
  intro depth
  have nothing : unitsFrom text column stop ⟨back, rest, back.length, depth⟩ = [] := by
    cases rest with
    | nil => rfl
    | cons byte rest =>
        rw [unitsFrom, tour, walk, List.takeWhile_cons_of_neg (by simpa using reached)]
  rw [nothing]
  exact ⟨rfl, rfl⟩

theorem unitsFrom_unit {depth : Nat} (nonempty : unit ≠ []) (before : back.length < stop)
    (width_eq : comparingWidth text column stop ⟨back, unit ++ rest, back.length, depth⟩ =
      unit.length) :
    ∃ level, unitsFrom text column stop ⟨back, unit ++ rest, back.length, depth⟩ =
      ⟨back, unit ++ rest, back.length, depth⟩ ::
        unitsFrom text column stop ⟨unit.reverse ++ back, rest, (unit.reverse ++ back).length,
          level⟩ := by
  obtain ⟨level, tour_eq⟩ := tour_unit nonempty width_eq
  refine ⟨level, ?_⟩
  rw [unitsFrom, tour_eq, List.takeWhile_cons_of_pos (by simpa using before), unitsFrom,
    List.length_append, List.length_reverse, Nat.add_comm]

/-- A unit that is no compared column is copied. -/
theorem writes_unit (nonempty : unit ≠ []) (before : back.length < stop)
    (quiet : ∀ depth,
      comparedColumn? text column stop ⟨back, unit ++ rest, back.length, depth⟩ = none)
    (lexeme : ∀ depth, lexemeWidth .standard ⟨back, unit ++ rest, back.length, depth⟩ = unit.length)
    (writes : Writes text column replacement stop (unit.reverse ++ back) rest written hit) :
    Writes text column replacement stop back (unit ++ rest) (unit ++ written) hit := by
  intro depth
  obtain ⟨level, units_eq⟩ := @unitsFrom_unit text column _ _ rest _ depth nonempty before
    (by rw [comparingWidth, quiet, Option.getD_none, lexeme])
  have copied : renamedUnit text column replacement stop ⟨back, unit ++ rest, back.length, depth⟩ =
      unit := by
    rw [renamedUnit, quiet, Option.isSome_none, if_neg Bool.false_ne_true, lexeme]
    exact List.take_left
  rw [units_eq, List.flatMap_cons, List.any_cons, copied, (writes level).1, (writes level).2, quiet]
  exact ⟨rfl, rfl⟩

/-- A compared column is replaced. -/
theorem writes_hit (nonempty : unit ≠ []) (before : back.length < stop)
    (found : ∀ depth, comparedColumn? text column stop ⟨back, unit ++ rest, back.length, depth⟩ =
      some unit.length)
    (writes : Writes text column replacement stop (unit.reverse ++ back) rest written hit) :
    Writes text column replacement stop back (unit ++ rest) (replacement ++ written) true := by
  intro depth
  obtain ⟨level, units_eq⟩ := @unitsFrom_unit text column _ _ rest _ depth nonempty before
    (by rw [comparingWidth, found, Option.getD_some])
  have replaced :
      renamedUnit text column replacement stop ⟨back, unit ++ rest, back.length, depth⟩ =
      replacement := by
    rw [renamedUnit, found, Option.isSome_some, if_pos rfl]
  rw [units_eq, List.flatMap_cons, List.any_cons, replaced, (writes level).1, found]
  exact ⟨rfl, rfl⟩

theorem comparedColumn?_of_spoken (name : IsName column) {site : Site}
    (other : site.spoken ≠ column) :
    comparedColumn? text column stop site = none := by
  rw [comparedColumn?]
  split
  · rfl
  · rw [word?_of_isName name, if_neg other, Option.filter_none]

/-- The rest of a word is copied. -/
theorem writes_inside (name : IsName column) (identifiers : ∀ byte ∈ unit, byte.isIdentifier = true)
    (inside : back.head?.any Byte.isIdentifier = true) (within : back.length + unit.length ≤ stop)
    (writes : Writes text column replacement stop (unit.reverse ++ back) rest written hit) :
    Writes text column replacement stop back (unit ++ rest) (unit ++ written) hit := by
  induction unit generalizing back with
  | nil => simpa using writes
  | cons byte unit ih =>
      have identifier := identifiers byte List.mem_cons_self
      have unquoted := Byte.isQuote_of_isIdentifier byte identifier
      rw [List.length_cons] at within
      have tail := @ih (byte :: back)
        (fun other member => identifiers other (List.mem_cons_of_mem _ member))
        (by simpa using identifier) (by rw [List.length_cons]; omega) (by simpa using writes)
      have head := @writes_unit _ _ _ _ back (unit ++ rest) _ [byte] _ (by simp)
        (by omega) (fun depth => comparedColumn?_of_spoken name ?_) (fun depth => ?_) tail
      · simpa using head
      · rw [spoken, if_pos (by simpa [afterIdentifier, previous?] using inside)]
        exact name.nonempty.symm
      · exact lexemeWidth_code _ _ _ _ _ unquoted

/-- A word that is no compared column is copied. -/
theorem writes_word (name : IsName column) (is_name : IsName unit)
    (within : back.length + unit.length ≤ stop)
    (quiet : ∀ depth,
      comparedColumn? text column stop ⟨back, unit ++ rest, back.length, depth⟩ = none)
    (writes : Writes text column replacement stop (unit.reverse ++ back) rest written hit) :
    Writes text column replacement stop back (unit ++ rest) (unit ++ written) hit := by
  obtain ⟨letter, unit, rfl⟩ := List.exists_cons_of_ne_nil is_name.nonempty
  have identifier := is_name.identifiers letter List.mem_cons_self
  have unquoted := Byte.isQuote_of_isIdentifier letter identifier
  rw [List.length_cons] at within
  have inside : (letter :: back).head?.any Byte.isIdentifier = true := by simpa using identifier
  have fits : (letter :: back).length + unit.length ≤ stop := by
    rw [List.length_cons]
    omega
  rw [List.reverse_cons, List.append_assoc, List.singleton_append] at writes
  have tail := writes_inside name
    (fun byte member => is_name.identifiers byte (List.mem_cons_of_mem _ member)) inside fits writes
  have head := @writes_unit _ _ _ _ back (unit ++ rest) _ [letter] _ (by simp)
    (by omega) quiet (fun depth => lexemeWidth_code _ _ _ _ _ unquoted) tail
  simpa using head

open Token in
/-- A token that is no word is copied. -/
theorem writes_token (name : IsName column) {previous : Option Token} {token : Token}
    {tokens : List Token} (after : After back previous) (lexed : Lexed previous (token :: tokens))
    (wordless : token.isWord = false) (before : back.length < stop)
    (writes : Writes text column replacement stop (token.bytes.reverse ++ back)
      (spell tokens) written hit) :
    Writes text column replacement stop back (token.bytes ++ spell tokens)
      (token.bytes ++ written) hit := by
  obtain ⟨first, others, bytes_eq, identifier⟩ := exists_bytes_cons lexed.1.2 wordless
  refine writes_unit (bytes_ne_nil lexed.1.2) before
    (fun depth => comparedColumn?_of_spoken name ?_)
    (after.lexemeWidth_token lexed wordless _) writes
  rw [spoken, bytes_eq, List.cons_append]
  split
  · exact name.nonempty.symm
  · rw [List.takeWhile_cons_of_neg (by simp [identifier])]
    exact name.nonempty.symm

open Token in
/-- At a word the column is found where the tokens have it. -/
theorem comparedColumn?_word (name : IsName column) {back spelled : Text}
    {tokens others : List Token} (is_name : IsName spelled)
    (begins : back.head?.any Byte.isIdentifier = false)
    (lexed : Lexed (some (.word spelled)) (tokens ++ others))
    (reaches : Reaches stop (back.length + spelled.length) tokens)
    (text_eq : text = back.reverse ++ (spelled ++ spell (tokens ++ others))) (depth : Nat) :
    comparedColumn? text column stop
        ⟨back, spelled ++ spell (tokens ++ others), back.length, depth⟩ =
      if introduced back && upper spelled == column && comparedNext tokens then some spelled.length
      else none := by
  have spoken_eq := @spoken_spell _ back is_name (spell (tokens ++ others)) begins
    (head?_spell_of_word lexed) back.length depth
  by_cases same : upper spelled = column
  · have length_eq : column.length = spelled.length := by rw [← same, length_upper]
    have unquoted : Site.atQuote ⟨back, spelled ++ spell (tokens ++ others), back.length, depth⟩ =
        false := by
      obtain ⟨letter, spelled, rfl⟩ := List.exists_cons_of_ne_nil is_name.nonempty
      have identifier := is_name.identifiers letter List.mem_cons_self
      simp [atQuote, byte?, Byte.isQuote_of_isIdentifier letter identifier]
    have equals : Site.equalsBefore stop spelled.length
        ⟨back, spelled ++ spell (tokens ++ others), back.length, depth⟩ = comparedNext tokens := by
      rw [equalsBefore, List.drop_left]
      exact comparedNext_spell lexed reaches
    rw [comparedColumn?, unquoted, Bool.false_or, word?_of_isName name, spoken_eq,
      if_pos same, same, beq_self_eq_true, Bool.and_true]
    cases dotted :
        Site.afterDot ⟨back, spelled ++ spell (tokens ++ others), back.length, depth⟩ with
    | true =>
        rw [introduced_of_afterDot dotted]
        rfl
    | false =>
        rw [if_neg Bool.false_ne_true, Option.filter_some, length_eq, equals, text_eq,
          followsConjunction_eq begins]
  · rw [comparedColumn?_of_spoken name (spoken_eq ▸ same), beq_false_of_ne same, Bool.and_false,
      Bool.false_and, if_neg Bool.false_ne_true]

open Token in
/-- What is written for the tokens of a region are the renamed tokens, and a column is found unless
all of them stay. -/
theorem writes_spell (name : IsName column) {back : Text} {previous : Option Token}
    {tokens others : List Token} (after : After back previous)
    (lexed : Lexed previous (tokens ++ others)) (reaches : Reaches stop back.length tokens)
    (text_eq : text = back.reverse ++ spell (tokens ++ others)) :
    Writes text column replacement stop back (spell (tokens ++ others))
      (spell (rename column replacement (introduced back) tokens))
      (!(renamedPlaces column (introduced back) back.length tokens).isEmpty) := by
  induction tokens generalizing back previous with
  | nil => exact writes_stop (Nat.le_of_eq (Eq.symm reaches))
  | cons token tokens ih =>
      have before := reaches.lt lexed.1.2
      have follows := lexed.1.2
      rw [List.cons_append, spell_cons] at text_eq ⊢
      have rest_eq : text = (token.bytes.reverse ++ back).reverse ++ spell (tokens ++ others) := by
        rw [text_eq]
        simp
      have length_eq : (token.bytes.reverse ++ back).length = back.length + token.bytes.length := by
        rw [List.length_append, List.length_reverse, Nat.add_comm]
      cases token with
      | word spelled =>
          have begins := after.word.trans follows.2
          have compared := comparedColumn?_word name follows.1 begins lexed.2 reaches text_eq
          have writes := ih (after.of_word follows.1 follows.2) lexed.2
            (by rw [show (spelled.reverse ++ back).length = _ from length_eq]; exact reaches)
            rest_eq
          rw [introduced_word follows.1 begins,
            show (spelled.reverse ++ back).length = _ from length_eq] at writes
          rw [rename, renamed, renamedPlaces]
          split
          · rename_i found
            exact writes_hit follows.1.nonempty before
              (fun depth => (compared depth).trans (if_pos found)) writes
          · rename_i missed
            exact writes_word name follows.1 (@Reaches.le _ _ tokens reaches)
              (fun depth => (compared depth).trans (if_neg missed)) writes
      | byte plain =>
          have writes := ih (after.of_token follows rfl) lexed.2 (length_eq ▸ reaches) rest_eq
          rw [bytes, List.reverse_singleton, List.singleton_append, introduced_plain follows.1 back]
            at writes
          exact writes_token name after lexed rfl before writes
      | literal mark content =>
          have closes : introduced ((literal mark content).bytes.reverse ++ back) = false := by
            simpa [bytes] using introduced_literal follows.1 follows.2.2 back
          have writes := ih (after.of_token follows rfl) lexed.2 (length_eq ▸ reaches) rest_eq
          rw [length_eq, closes] at writes
          exact writes_token name after lexed rfl before writes
      | remnant mark content =>
          obtain ⟨rfl, rfl⟩ := List.append_eq_nil_iff.mp (eq_nil_of_remnant lexed)
          exact writes_token name after lexed rfl before (writes_stop (length_eq ▸ reaches.2))

end Writes

end Repair

end TenantScope
