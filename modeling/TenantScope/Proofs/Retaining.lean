import TenantScope.Proofs.Dialects
import TenantScope.Proofs.Renaming
import TenantScope.Proofs.Settling

/-!
# What normal form retains

A text in normal form is read as the text it comes from: it has the same clauses, reads from the
same table and combines queries if that one did, also where its end lies inside a literal.  If its
literals are closed, it holds them and the visible bytes between them in their order, with one
semicolon for those at the end.
-/

namespace TenantScope

open Text Site Literal

/-! ## The name of the table -/

namespace TableName

theorem continues_of_trails {byte : Byte} (trailing : Token.trails byte = true) :
    continues byte = false := by
  refine Bool.eq_false_iff.mpr fun continued => ?_
  have marked : isMark byte = false := Bool.eq_false_iff.mpr fun marked => by
    have quote : byte.isQuote = true := by
      simp only [isMark, Bool.or_eq_true, beq_iff_eq] at marked
      rcases marked with rfl | rfl <;> decide
    simp [Token.trails_of_isQuote quote] at trailing
  simp only [continues, marked, Bool.or_false, Bool.or_eq_true, beq_iff_eq] at continued
  rcases continued with identifier | rfl
  · simp [Token.trails_of_isIdentifier identifier] at trailing
  · exact absurd trailing (by decide)

theorem takeWhile_of_trails {text : Text} (trailing : ∀ byte ∈ text, Token.trails byte = true) :
    text.takeWhile continues = [] := by
  cases text with
  | nil => rfl
  | cons byte text =>
      rw [List.takeWhile_cons_of_neg
        (by simp [continues_of_trails (trailing byte List.mem_cons_self)])]

theorem read_of_trails {text : Text} (trailing : ∀ byte ∈ text, Token.trails byte = true) :
    read text = [] := by
  have visible : (text.dropWhile Byte.isSpace).takeWhile continues = [] :=
    takeWhile_of_trails fun byte member => trailing byte (List.dropWhile_subset _ member)
  rw [read, visible]
  rfl

end TableName

namespace Token

open TableName

/-- No name goes on after white space. -/
theorem takeWhile_respace_true (tokens : List Token) :
    (spell (respace true tokens)).takeWhile continues = [] := by
  induction tokens with
  | nil => rfl
  | cons token tokens ih =>
      cases gap : token.isGap with
      | true => rw [respace_of_gap _ gap, ih]
      | false =>
          rw [respace_of_visible _ gap]
          rfl

theorem takeWhile_respace (tokens : List Token) :
    (spell (respace false tokens)).takeWhile continues = (spell tokens).takeWhile continues := by
  induction tokens with
  | nil => rfl
  | cons token tokens ih =>
      cases gap : token.isGap with
      | true =>
          obtain ⟨plain, rfl, space⟩ := exists_of_isGap gap
          have stops : continues plain = false := continues_of_trails (by simp [trails, space])
          rw [respace_of_gap _ gap, takeWhile_respace_true, spell_cons, bytes,
            List.singleton_append, List.takeWhile_cons_of_neg (by simp [stops])]
      | false =>
          rw [respace_of_visible _ gap, if_neg Bool.false_ne_true, List.nil_append, spell_cons,
            spell_cons]
          exact takeWhile_append_congr ih token.bytes

theorem read_respace (pending : Bool) (tokens : List Token) :
    read (spell (respace pending tokens)) = read (spell tokens) := by
  induction tokens generalizing pending with
  | nil => rfl
  | cons token tokens ih =>
      cases gap : token.isGap with
      | true =>
          obtain ⟨plain, rfl, space⟩ := exists_of_isGap gap
          rw [respace_of_gap _ gap, ih, spell_cons, bytes, List.singleton_append,
            read_of_space space]
      | false =>
          have same := read_append_congr (takeWhile_respace tokens) (ih false) token.bytes
          rw [respace_of_visible _ gap]
          cases pending with
          | false => exact same
          | true => exact (read_of_space (by decide) _).trans same

/-- The last token of a text and the one before its semicolon have all in common
but what trails it. -/
theorem exists_core (last : Token) : ∃ core trail, last.bytes = core ++ trail ∧
    spell (finish last) = core ++ [Byte.semicolon] ∧ ∀ byte ∈ trail, trails byte = true := by
  cases last with
  | remnant mark content =>
      refine ⟨mark :: dropRightWhile trails content, (content.reverse.takeWhile trails).reverse, ?_,
        ?_, ?_⟩
      · rw [List.cons_append, dropRightWhile_append_takeWhile, bytes]
      · simp [finish, bytes]
      · exact fun byte member => List.mem_takeWhile_imp (List.mem_reverse.mp member)
  | word written => exact ⟨written, [], by simp [bytes], by simp [finish, bytes], by simp⟩
  | byte plain => exact ⟨[plain], [], by simp [bytes], by simp [finish, bytes], by simp⟩
  | literal mark content =>
      exact ⟨mark :: content, [], by simp [bytes], by simp [finish, bytes], by simp⟩

theorem read_finish (front : List Token) (last : Token) {rest : List Token}
    (trailers : ∀ token ∈ rest, token.isTrailer = true) :
    read (spell (front ++ finish last)) = read (spell (front ++ last :: rest)) := by
  obtain ⟨core, trail, bytes_eq, finish_eq, trailing⟩ := exists_core last
  have stop : ∀ byte ∈ [Byte.semicolon], trails byte = true := by simp [trails]
  have behind : ∀ byte ∈ trail ++ spell rest, trails byte = true := by
    rw [List.forall_mem_append]
    exact ⟨trailing, trails_of_mem_spell trailers⟩
  have direct := (takeWhile_of_trails stop).trans (takeWhile_of_trails behind).symm
  have same := read_append_congr direct ((read_of_trails stop).trans (read_of_trails behind).symm)
    (spell front ++ core)
  rw [spell_append, spell_append, spell_cons, finish_eq, bytes_eq]
  simpa only [List.append_assoc] using same

/-- What a `FROM` reads from is the same in normal form. -/
theorem steady_source : Steady source? where
  respace spoken pending tokens := by rw [source?, source?, read_respace]
  finish spoken front last rest _ trailers := by
    rw [source?, source?, read_finish front last trailers]
  trailers spoken tokens others trailers other_trailers := by
    rw [source?, source?, read_of_trails (trails_of_mem_spell trailers),
      read_of_trails (trails_of_mem_spell other_trailers)]

theorem tables_normal (tokens : List Token) : tables (normal tokens) = tables tokens :=
  heard_normal steady_source tokens

/-! ## Combined queries -/

/-- A word combines queries, whatever comes next. -/
def operator? (spoken _next : Text) : Option Unit :=
  if Outline.setOperators.contains spoken then some () else none

/-- The words that combine queries outside parentheses. -/
def operators (tokens : List Token) : List Unit :=
  heard (fun spoken tokens => operator? spoken (nextWord tokens)) false 0 tokens

theorem operators_normal (tokens : List Token) : operators (normal tokens) = operators tokens :=
  heard_normal (steady_nextWord operator?) tokens

end Token

namespace Site

/-- A word that combines queries stands at the place. -/
def operator? (site : Site) : Option Unit :=
  if site.depth = 0 ∧
  site.afterDot = false then Token.operator? site.spoken site.nextSpoken else none

theorem countsAt_combination (site : Site) :
    Mark.combination.countsAt site = true ↔ site.operator? = some () := by
  have names : ∀ operator ∈ Outline.setOperators, IsName operator := by decide
  have occurs_iff : Mark.combination.occursAt site = true ↔ site.spoken ∈ Outline.setOperators := by
    rw [Mark.occursAt, List.any_eq_true]
    constructor
    · rintro ⟨operator, member, occurs⟩
      rwa [(hasWord_of_isName (names operator member) site).mp occurs]
    · exact fun member => ⟨_, member, (hasWord_of_isName (names _ member) site).mpr rfl⟩
  rw [Mark.countsAt_iff, occurs_iff, operator?, Token.operator?]
  simp only [Mark.inOutline, forall_const, Option.ite_none_right_eq_some, and_true,
    List.contains_iff_mem]
  tauto

end Site

theorem Outline.compound_eq_operators (text : Text) :
    (ofText text).compound = ((start text).code.filterMap Site.operator?).any fun _ => true := by
  rw [compound_ofText, marks, Site.marks, List.any_filterMap, List.any_filterMap]
  congr 1
  funext site
  change (site.markAt?.any fun found => found.mark == .combination) =
    site.operator?.any fun _ => true
  rw [any_markAt?, Bool.eq_iff_iff, countsAt_combination]
  cases site.operator? <;> simp

namespace Token

theorem compound_spell {tokens : List Token} (lexed : Lexed none tokens) :
    (Outline.ofText (spell tokens)).compound = (operators tokens).any fun _ => true := by
  have silent (site : Site) (nothing : site.spoken = []) : site.operator? = none := by
    have absent : ¬ Outline.setOperators.contains [] = true := by decide
    rw [Site.operator?, nothing, operator?, if_neg absent, ite_self]
  rw [Outline.compound_eq_operators, operators]
  congr 1
  refine filterMap_code_spell silent ?_ After.nil lexed 0 0
  rintro back written tokens offset depth name begins ends -
  rw [Site.operator?, spoken_spell name _ begins ends]
  rfl

/-! ## Visible units -/

/-- The literals and visible bytes of a token. -/
def units : Token → List Text
  | word written => written.map fun byte => [byte]
  | byte plain => if plain.isSpace then [] else [[plain]]
  | literal mark content => [mark :: content]
  | remnant mark content => [mark :: content]

end Token

namespace Text

/-- The literals of a text. -/
def literalTexts (text : Text) : List Text :=
  (start text).literals.map fun site => site.rest.take (Literal.width .standard site)

/-- The literals of a text and the visible bytes between them. -/
def units (text : Text) : List Text :=
  ((start text).lexemes.map fun site => site.rest.take (site.lexemeWidth .standard)).filter
    fun unit => !unit.all Byte.isSpace

end Text

/-- A lexeme is a literal, or the byte that it begins with. -/
theorem Site.exists_lexeme (back rest : Text) (byte : Byte) (offset depth : Nat) :
    ∃ content, (byte :: rest).take (lexemeWidth .standard ⟨back, byte :: rest, offset, depth⟩) =
      byte :: content ∧ (byte.isQuote = false → content = []) := by
  cases quote : byte.isQuote with
  | true =>
      rw [lexemeWidth_quote _ _ _ _ _ quote, List.take_succ_cons]
      exact ⟨_, rfl, by simp⟩
  | false =>
      rw [lexemeWidth_code _ _ _ _ _ quote]
      exact ⟨[], rfl, fun _ => rfl⟩

/-- The literals are the units that begin with a quotation mark. -/
theorem Text.literalTexts_eq (text : Text) :
    text.literalTexts = text.units.filter fun unit => unit.head?.any Byte.isQuote := by
  have begins_iff (site : Site) :
      ((fun unit : Text => unit.head?.any Byte.isQuote && !unit.all Byte.isSpace) ∘
      fun site : Site => site.rest.take (site.lexemeWidth .standard)) site = site.atQuote := by
    obtain ⟨back, rest, offset, depth⟩ := site
    cases rest with
    | nil => rfl
    | cons byte rest =>
        obtain ⟨content, lexeme_eq, -⟩ := exists_lexeme back rest byte offset depth
        simp only [Function.comp_apply, lexeme_eq, atQuote, byte?, List.head?_cons, Option.any_some]
        cases quote : byte.isQuote with
        | true =>
            simp [Byte.isSpace_of_isQuote byte quote]
        | false => rfl
  rw [literalTexts, literals, units, List.filter_filter, List.filter_map,
    List.filter_congr fun site _ =>
    begins_iff site]
  refine List.map_congr_left fun site member => ?_
  rw [lexemeWidth, if_pos (List.mem_filter.mp member).2]

/-- The bytes that a fragment keeps. -/
def Fragment.kept? : Fragment → Option Text
  | kept bytes => some bytes
  | gap => none

/-- A unit is what its fragment keeps, unless it is white space. -/
theorem Site.kept?_fragment (site : Site) :
    (NormalForm.fragment site).kept? =
      Option.guard (fun unit => !unit.all Byte.isSpace)
        (site.rest.take (site.lexemeWidth .standard)) := by
  obtain ⟨back, rest, offset, depth⟩ := site
  cases rest with
  | nil => simp [NormalForm.fragment, byte?, Fragment.kept?, Option.guard]
  | cons byte rest =>
      obtain ⟨content, lexeme_eq, single⟩ := exists_lexeme back rest byte offset depth
      cases quote : byte.isQuote with
      | true =>
          have visible := Byte.isSpace_of_isQuote byte quote
          have at_quote : (⟨back, byte :: rest, offset, depth⟩ : Site).atQuote = true := by
            simpa [atQuote, byte?] using quote
          rw [lexemeWidth, if_pos at_quote] at lexeme_eq ⊢
          simp [NormalForm.fragment, byte?, quote, lexeme_eq, Fragment.kept?, Option.guard, visible]
      | false =>
          rw [lexeme_eq, single quote]
          cases space : byte.isSpace <;>
            simp [NormalForm.fragment, byte?, quote, Fragment.ofByte, Fragment.kept?, Option.guard,
              space]

namespace Token

theorem kept?_fragments (token : Token) :
    token.fragments.filterMap Fragment.kept? = token.units := by
  cases token with
  | word written => simp [fragments, units, Fragment.kept?, List.filterMap_map, Function.comp_def]
  | byte plain =>
      cases space :
          plain.isSpace <;> simp [fragments, units, Fragment.ofByte, Fragment.kept?, space]
  | literal mark content => rfl
  | remnant mark content => rfl

/-- The units of a text are those of its tokens. -/
theorem units_spell {tokens : List Token} (lexed : Lexed none tokens) :
    (spell tokens).units = tokens.flatMap units := by
  have kept_eq : (spell tokens).units =
      ((start (spell tokens)).lexemes.map NormalForm.fragment).filterMap Fragment.kept? := by
    rw [Text.units, ← List.filterMap_eq_filter, List.filterMap_map, List.filterMap_map]
    exact List.filterMap_congr fun site _ => site.kept?_fragment.symm
  rw [kept_eq, start, fragments_spell After.nil lexed, List.filterMap_flatMap]
  simp only [kept?_fragments]

theorem units_of_gap {token : Token} (gap : token.isGap = true) : token.units = [] := by
  obtain ⟨plain, rfl, space⟩ := exists_of_isGap gap
  rw [units, if_pos space]

theorem units_of_isTrailer {token : Token} (trailer : token.isTrailer = true) :
    ∀ unit ∈ token.units, unit = [Byte.semicolon] := by
  cases token with
  | byte plain =>
      intro unit member
      cases space : plain.isSpace with
      | true => simp [units, space] at member
      | false =>
          obtain rfl : plain = Byte.semicolon := by simpa [isTrailer, trails, space] using trailer
          simpa [units, space] using member
  | word written => simp [isTrailer] at trailer
  | literal mark content => simp [isTrailer] at trailer
  | remnant mark content => simp [isTrailer] at trailer

theorem exists_unit_of_visible {previous : Option Token} {token : Token}
    (follows : Follows previous token) (visible : token.isTrailer = false) :
    ∃ front unit, token.units = front ++ [unit] ∧ unit ≠ [Byte.semicolon] := by
  have apart {byte : Byte} (kept : trails byte = false) : byte ≠ Byte.semicolon := by
    rintro rfl
    exact absurd kept (by decide)
  cases token with
  | word written =>
      obtain ⟨front, letter, rfl⟩ := (List.eq_nil_or_concat written).resolve_left follows.1.nonempty
      refine ⟨front.map fun byte => [byte], [letter], by simp [units], ?_⟩
      simpa using apart (trails_of_isIdentifier (follows.1.identifiers letter (by simp)))
  | byte plain =>
      have shown : plain.isSpace = false := isGap_of_isTrailer visible
      exact ⟨[], [plain], by simp [units, shown], by simpa using apart visible⟩
  | literal mark content =>
      exact ⟨[], mark :: content, rfl, by simp [apart (trails_of_isQuote follows.1)]⟩
  | remnant mark content =>
      exact ⟨[], mark :: content, rfl, by simp [apart (trails_of_isQuote follows.1)]⟩

theorem units_squeeze (tokens : List Token) :
    (squeeze tokens).flatMap units = tokens.flatMap units := by
  have shown (tokens : List Token) : tokens.flatMap units =
      (tokens.filterMap (Option.guard fun token => !token.isGap)).flatMap units := by
    induction tokens with
    | nil => rfl
    | cons token tokens ih =>
        cases gap : token.isGap <;> simp [Option.guard, gap, ih, units_of_gap]
  rw [shown, shown tokens, filterMap_squeeze]
  intro token gap
  simp [Option.guard, gap]

end Token

namespace Text

/-- Units with one semicolon for those at their end, if there are others. -/
def ended (units : List Text) : List Text :=
  match units.rdropWhile (· == [Byte.semicolon]) with
  | [] => []
  | front => front ++ [[Byte.semicolon]]

theorem ended_of_semicolons {units : List Text}
    (semicolons : ∀ unit ∈ units, unit = [Byte.semicolon]) :
    ended units = [] := by
  have nothing : units.rdropWhile (· == [Byte.semicolon]) = [] :=
    List.rdropWhile_eq_nil_iff.mpr fun unit member => by simp [semicolons unit member]
  rw [ended, nothing]

theorem ended_append (front : List Text) {rest : List Text} {last : Text}
    (visible : last ≠ [Byte.semicolon]) (semicolons : ∀ unit ∈ rest, unit = [Byte.semicolon]) :
    ended (front ++ last :: rest) = front ++ [last, [Byte.semicolon]] := by
  have kept : (front ++ last :: rest).rdropWhile (· == [Byte.semicolon]) = front ++ [last] := by
    rw [List.rdropWhile, List.reverse_append, List.reverse_cons, List.append_assoc,
      List.dropWhile_append_of_pos fun unit member => by
        simp [semicolons unit (List.mem_reverse.mp member)]]
    simp [visible]
  rw [ended, kept]
  cases front <;> simp

end Text

namespace Token

/-- A text with closed literals has its units in normal form, with one semicolon
for those at its end. -/
theorem units_normal {tokens : List Token} (lexed : Lexed none tokens) (whole : Whole tokens) :
    (normal tokens).flatMap units = ended (tokens.flatMap units) := by
  rw [← units_squeeze tokens]
  rcases normal_cases tokens with
    ⟨normal_eq, trailers⟩ | ⟨front, last, rest, squeeze_eq, normal_eq, visible, trailers⟩
  · rw [normal_eq, ended_of_semicolons]
    · rfl
    · intro unit member
      obtain ⟨token, token_mem, unit_mem⟩ := List.mem_flatMap.mp member
      exact units_of_isTrailer (trailers token token_mem) unit unit_mem
  · have squeezed := linked_squeeze spaceable_joins lexed
    rw [squeeze_eq, linked_append] at squeezed
    obtain ⟨lead, unit, units_eq, unit_ne⟩ := exists_unit_of_visible squeezed.2.1.2 visible
    have finish_eq : finish last = [last, byte Byte.semicolon] := by
      rw [← whole_normal, normal_eq] at whole
      cases last with
      | remnant mark content =>
          exact absurd (whole _ (List.mem_append_right front List.mem_cons_self))
            (by simp [isRemnant])
      | _ => rfl
    have stop : (byte Byte.semicolon).units = [[Byte.semicolon]] := by decide
    have behind : ∀ other ∈ rest.flatMap units, other = [Byte.semicolon] := by
      intro other member
      obtain ⟨token, token_mem, unit_mem⟩ := List.mem_flatMap.mp member
      exact units_of_isTrailer (trailers token token_mem) other unit_mem
    have split := ended_append (front.flatMap units ++ lead) unit_ne behind
    rw [normal_eq, squeeze_eq, finish_eq]
    simp only [List.flatMap_append, List.flatMap_cons, List.flatMap_nil, units_eq, stop,
      List.append_assoc, List.singleton_append, List.append_nil] at split ⊢
    exact split.symm

end Token

/-! ## Texts in normal form -/

namespace Text

theorem filter_ended (units : List Text) :
    (ended units).filter (fun unit => unit.head?.any Byte.isQuote) =
      units.filter fun unit => unit.head?.any Byte.isQuote := by
  have nothing :
      (units.rtakeWhile (· == [Byte.semicolon])).filter (fun unit => unit.head?.any Byte.isQuote) =
      [] := by
    refine List.filter_eq_nil_iff.mpr fun unit member => ?_
    obtain rfl : unit = [Byte.semicolon] := by simpa using List.mem_rtakeWhile_imp member
    decide
  have kept : units.filter (fun unit => unit.head?.any Byte.isQuote) =
      (units.rdropWhile (· == [Byte.semicolon])).filter fun unit =>
        unit.head?.any Byte.isQuote := by
    conv_lhs =>
      rw [← List.rdropWhile_append_rtakeWhile (p := (· == [Byte.semicolon])) (l := units)]
    rw [List.filter_append, nothing, List.append_nil]
  have stop : [[Byte.semicolon]].filter (fun unit : Text => unit.head?.any Byte.isQuote) = [] := by
    decide
  rw [kept, ended]
  cases units.rdropWhile (· == [Byte.semicolon]) with
  | nil => rfl
  | cons first others => rw [List.filter_append, stop, List.append_nil]

end Text

/-- A text in normal form is its own normal form.  It has the clauses of the text, reads from its
table and combines queries if it does.  If the literals of the text are closed, it has its literals,
and all that is visible in it, in their order, with one semicolon for those at the end. -/
theorem normalize_retains (text : Text) :
    text.normalize.normalize = text.normalize ∧
      (Outline.ofText text.normalize).clauses.map (·.clause) =
        (Outline.ofText text).clauses.map (·.clause) ∧
      (Outline.ofText text.normalize).source?.map (·.table) =
        (Outline.ofText text).source?.map (·.table) ∧
      (Outline.ofText text.normalize).compound = (Outline.ofText text).compound ∧
      (Closed (start text) → text.normalize.literalTexts = text.literalTexts ∧
        text.normalize.units = ended text.units) := by
  refine ⟨Token.normalize_normalize text, ?_, ?_⟩
  · rw [← Outline.order_kinds, ← Outline.order_kinds, kinds_normalize]
  · obtain ⟨tokens, lexed, rfl⟩ := Token.exists_lexed text
    have normal_lexed := Token.lexed_normal lexed
    rw [Token.normalize_spell lexed, Token.source?_table_spell normal_lexed,
      Token.source?_table_spell lexed, Token.tables_normal, Token.compound_spell normal_lexed,
      Token.compound_spell lexed, Token.operators_normal]
    refine ⟨rfl, rfl, fun closed => ?_⟩
    have whole := (Token.closed_start_spell lexed).mp closed
    have units_eq :
        (Token.spell (Token.normal tokens)).units = ended (Token.spell tokens).units := by
      rw [Token.units_spell normal_lexed, Token.units_spell lexed, Token.units_normal lexed whole]
    exact ⟨by rw [literalTexts_eq, literalTexts_eq, units_eq, filter_ended], units_eq⟩

/-- A text with white space in a literal and in a quoted name, and with two
semicolons at its end. -/
theorem normalize_retains_spaced :
    let text := ascii "SELECT 'a  b'\n FROM \"T x\"  WHERE a = 1 ; ;"
    Closed (start text) ∧ text.normalize = ascii "SELECT 'a  b' FROM \"T x\" WHERE a = 1;" ∧
      text.normalize.normalize = text.normalize ∧
      text.normalize.literalTexts = [ascii "'a  b'", ascii "\"T x\""] ∧
      text.normalize.units = ended text.units := by
  intro text
  have closed : Closed (start text) := by decide +kernel
  obtain ⟨again, -, -, -, retained⟩ := normalize_retains text
  obtain ⟨literals, visible⟩ := retained closed
  exact ⟨closed, by decide +kernel, again, literals.trans (by decide +kernel), visible⟩

end TenantScope
