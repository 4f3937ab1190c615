import Mathlib.Data.Nat.Find
import TenantScope.Proofs.Finding
import TenantScope.Proofs.Terminators

/-!
# Occurrences and their places

A search reads a statement byte by byte or lexeme by lexeme, jumps over what it has found and
remembers what came before.  This file says what is found in terms of places alone: a word is at a
place, a literal ends before a place, one place comes after another.
-/

namespace TenantScope

open Text Site Literal

/-! ## The first of those for which something holds -/

/-- Something holds for a member of a list and for none before it. -/
def FirstSuch {α : Type} (property : α → Prop) (list : List α) (first : α) : Prop :=
  ∃ earlier later, list = earlier ++ first :: later ∧ property first ∧
    ∀ other ∈ earlier, ¬ property other

namespace FirstSuch

variable {α : Type} {property : α → Prop} {list : List α} {first : α}
  (such : FirstSuch property list first)

include such

theorem mem : first ∈ list := by
  obtain ⟨earlier, later, rfl, -⟩ := such
  simp

theorem holds : property first := by
  obtain ⟨-, -, -, found, -⟩ := such
  exact found

theorem append_right (more : List α) : FirstSuch property (list ++ more) first := by
  obtain ⟨earlier, later, rfl, found, none_before⟩ := such
  exact ⟨earlier, later ++ more, by simp, found, none_before⟩

end FirstSuch

theorem find?_eq_some_iff_firstSuch {α : Type} {test : α → Bool} {list : List α} {first : α} :
    list.find? test = some first ↔ FirstSuch (fun member => test member = true) list first := by
  rw [List.find?_eq_some_iff_append, FirstSuch]
  constructor
  · rintro ⟨holds, earlier, later, rfl, none_before⟩
    exact ⟨earlier, later, rfl, holds, fun other member => by simpa using none_before other member⟩
  · rintro ⟨earlier, later, rfl, holds, none_before⟩
    exact ⟨holds, earlier, later, rfl, fun other member => by simpa using none_before other member⟩

theorem firstSuch_congr {α : Type} {property other : α → Prop} {list : List α}
    (same : ∀ member ∈ list, property member ↔ other member) {first : α} :
    FirstSuch property list first ↔ FirstSuch other list first := by
  rw [FirstSuch, FirstSuch]
  refine exists₂_congr fun earlier later => and_congr_right fun split => ?_
  subst split
  exact and_congr (same first (by simp))
    (forall₂_congr fun member listed => not_congr (same member (by simp [listed])))

/-! ## Words anywhere in a text -/

/-- A test of places that does not look at how many parentheses are open. -/
def Site.Level (test : Site → Bool) : Prop :=
  ∀ back rest offset depth depth',
    test ⟨back, rest, offset, depth⟩ = test ⟨back, rest, offset, depth'⟩

section Everywhere

variable {test : Site → Bool} (level : Site.Level test)

include level

private theorem find?_everywhere_append (back rest : Text) (depth place : Nat) :
    ((everywhere ⟨back, rest, back.length, depth⟩).find? test).map (·.offset) = some place ↔
      back.length ≤ place ∧ place < back.length + rest.length ∧
        test (atOffset (back.reverse ++ rest) place) = true ∧
        ∀ earlier, back.length ≤ earlier → earlier < place →
          test (atOffset (back.reverse ++ rest) earlier) = false := by
  induction rest generalizing back depth with
  | nil =>
      refine ⟨fun found => absurd found (by simp [everywhere, tour, walk]),
        fun ⟨from_back, within, _⟩ => ?_⟩
      rw [List.length_nil] at within
      omega
  | cons byte rest ih =>
      have here : atOffset (back.reverse ++ byte :: rest) back.length =
          ⟨back, byte :: rest, back.length, 0⟩ := by
        rw [atOffset, ← List.length_reverse, List.take_left, List.drop_left, List.reverse_reverse]
      have whole : (byte :: back).reverse ++ rest = back.reverse ++ byte :: rest := by simp
      have later := ih (byte :: back) (depthAfter byte depth)
      rw [whole, List.length_cons] at later
      rw [everywhere, tour, walk, List.length_cons]
      cases passed : test ⟨back, byte :: rest, back.length, depth⟩ with
      | true =>
          rw [List.find?_cons_of_pos passed, Option.map_some, Option.some.injEq]
          rw [level _ _ _ _ 0, ← here] at passed
          change back.length = place ↔ _
          constructor
          · rintro rfl
            exact ⟨le_refl _, by omega, passed, fun earlier from_back before => by omega⟩
          · rintro ⟨from_back, -, -, first⟩
            by_contra other
            exact absurd (first _ (le_refl _) (by omega)) (by simp [passed])
      | false =>
          rw [List.find?_cons_of_neg (by simp [passed])]
          rw [level _ _ _ _ 0, ← here] at passed
          refine Iff.trans later ⟨?_, ?_⟩
          · rintro ⟨from_later, within, found, first⟩
            refine ⟨by omega, by omega, found, fun earlier from_back before => ?_⟩
            obtain rfl | from_later := Nat.eq_or_lt_of_le from_back
            · exact passed
            · exact first earlier from_later before
          · rintro ⟨from_back, within, found, first⟩
            have apart : back.length ≠ place := fun same => absurd (same ▸ found) (by simp [passed])
            exact ⟨by omega, by omega, found,
              fun earlier from_later before => first earlier (by omega) before⟩

/-- A search from a place on finds the first place that passes the test. -/
theorem find?_everywhere (text : Text) (start place : Nat) :
    ((atOffset text start).everywhere.find? test).map (·.offset) = some place ↔
      start ≤ place ∧ place < text.length ∧ test (atOffset text place) = true ∧
        ∀ earlier, start ≤ earlier → earlier < place → test (atOffset text earlier) = false := by
  rcases Nat.lt_or_ge text.length start with beyond | within
  · have nothing : (atOffset text start).everywhere = [] := by
      rw [everywhere, tour,
        show (atOffset text start).rest = [] from List.drop_eq_nil_of_le beyond.le]
      rfl
    rw [nothing]
    refine ⟨fun found => absurd found (by simp), ?_⟩
    rintro ⟨from_start, inside, -⟩
    omega
  · have found := find?_everywhere_append level (text.take start).reverse (text.drop start) 0 place
    rw [List.length_reverse, List.length_take, Nat.min_eq_left within, List.reverse_reverse,
      List.take_append_drop, List.length_drop, Nat.add_sub_cancel' within] at found
    exact found

theorem find?_everywhere_isSome (text : Text) (start : Nat) :
    ((atOffset text start).everywhere.find? test).isSome = true ↔
      ∃ place, start ≤ place ∧ place < text.length ∧ test (atOffset text place) = true := by
  rw [← Option.isSome_map (f := Site.offset), Option.isSome_iff_exists]
  constructor
  · rintro ⟨place, found⟩
    obtain ⟨from_start, within, passed, -⟩ := (find?_everywhere level text start place).mp found
    exact ⟨place, from_start, within, passed⟩
  · intro passing
    classical
    obtain ⟨from_start, within, passed⟩ := Nat.find_spec passing
    exact ⟨Nat.find passing, (find?_everywhere level text start _).mpr ⟨from_start, within, passed,
      fun earlier start_le before => Bool.eq_false_iff.mpr fun found =>
        Nat.find_min passing before ⟨start_le, before.trans within, found⟩⟩⟩

end Everywhere

namespace Word

theorem level_hasWord (keyword : Text) : Site.Level (Site.hasWord keyword) :=
  fun _ _ _ _ _ => rfl

theorem lt_length_of_hasWord {keyword text : Text} {place : Nat}
    (occurs : (atOffset text place).hasWord keyword = true) : place < text.length := by
  by_contra beyond
  exact (hasWord_iff.mp occurs).2.1 (List.drop_eq_nil_of_le (Nat.le_of_not_lt beyond))

/-- A search finds the first place at which a word is. -/
theorem first?_eq_some_iff {keyword text : Text} {start place : Nat} :
    first? keyword text start = some place ↔
      start ≤ place ∧ (atOffset text place).hasWord keyword = true ∧
        ∀ earlier, start ≤ earlier → earlier < place →
          (atOffset text earlier).hasWord keyword = false := by
  rw [first?, find?_everywhere (level_hasWord keyword)]
  exact and_congr_right fun _ => and_iff_right_of_imp fun found => lt_length_of_hasWord found.1

theorem first?_isSome_iff {keyword text : Text} {start : Nat} :
    (first? keyword text start).isSome = true ↔
      ∃ place, start ≤ place ∧ (atOffset text place).hasWord keyword = true := by
  rw [first?, Option.isSome_map, find?_everywhere_isSome (level_hasWord keyword)]
  exact exists_congr fun place => and_congr_right fun _ => and_iff_right_of_imp lt_length_of_hasWord

theorem first?_eq_none_iff {keyword text : Text} {start : Nat} :
    first? keyword text start = none ↔
      ∀ place, start ≤ place → (atOffset text place).hasWord keyword = false := by
  rw [← Option.not_isSome_iff_eq_none, first?_isSome_iff]
  simp

/-- A count that jumps over a name where it occurs counts the places outside literals at which it
is: the two readings agree but for bytes of a word that the count has found already. -/
private theorem countP_walk {keyword : Text} (name : IsName keyword) {back rest : Text}
    {offset depth skip skip' : Nat}
    (agree : skip = skip' ∨ skip' = 0 ∧ Policy.Jumps skip back rest) :
    (walk (countingWidth keyword) back offset depth skip rest).countP
        (fun site => !site.atQuote && site.hasWord keyword) =
      ((walk (lexemeWidth .standard) back offset depth skip' rest).filter fun lexeme =>
        !lexeme.atQuote).countP (Site.hasWord keyword) := by
  induction rest generalizing back offset depth skip skip' with
  | nil => cases skip <;> cases skip' <;> rfl
  | cons byte rest ih =>
      cases skip with
      | succ skip =>
          obtain rfl | ⟨rfl, jumps⟩ := agree
          · exact ih (.inl rfl)
          · obtain ⟨inside, identifiers⟩ := jumps (Nat.succ_pos skip)
            obtain ⟨identifier, identifiers⟩ := List.forall_mem_cons.mp identifiers
            have plain : atQuote ⟨back, byte :: rest, offset, depth⟩ = false :=
              Byte.isQuote_of_isIdentifier byte identifier
            have passed : ¬ hasWord keyword ⟨back, byte :: rest, offset, depth⟩ = true :=
              fun occurs =>
              absurd ((hasWord_iff.mp occurs).2.2.1.symm.trans inside) Bool.false_ne_true
            rw [walk, walk, List.filter_cons_of_pos (by rw [plain]; rfl),
              List.countP_cons_of_neg passed,
              depthAfter_of_flat (Byte.depthless_of_isIdentifier byte identifier), lexemeWidth,
              plain, if_neg Bool.false_ne_true, Nat.sub_self]
            exact ih (.inr ⟨rfl, fun _ => ⟨identifier, identifiers⟩⟩)
      | zero =>
          obtain rfl : skip' = 0 := agree.elim Eq.symm And.left
          rw [walk, walk]
          cases quote : atQuote ⟨back, byte :: rest, offset, depth⟩ with
          | true =>
              rw [List.filter_cons_of_neg (by simp [quote]),
                List.countP_cons_of_neg (by simp [quote]), countingWidth, lexemeWidth, quote]
              exact ih (.inl rfl)
          | false =>
              rw [List.filter_cons_of_pos (by simp [quote])]
              cases occurs : hasWord keyword ⟨back, byte :: rest, offset, depth⟩ with
              | false =>
                  have width_eq :
                      countingWidth keyword ⟨back, byte :: rest, offset, depth⟩ = 1 := by
                    rw [hasWord, Option.isSome_eq_false_iff, Option.isNone_iff_eq_none] at occurs
                    rw [countingWidth, quote, occurs]
                    rfl
                  rw [List.countP_cons_of_neg (by simp [occurs]),
                    List.countP_cons_of_neg (by simp [occurs]),
                    width_eq, lexemeWidth, quote]
                  exact ih (.inl rfl)
              | true =>
                  have spoken_eq := (hasWord_of_isName name _).mp occurs
                  have width_eq :
                      countingWidth keyword ⟨back, byte :: rest, offset, depth⟩ =
                        keyword.length := by
                    rw [countingWidth, quote, word?_of_isName name, if_pos spoken_eq]
                    rfl
                  have later : Policy.Jumps (keyword.length - 1) (byte :: back) rest :=
                    fun positive => by
                    have identifiers :=
                      fun other =>
                        @isIdentifier_of_mem_take ⟨back, byte :: rest, offset, depth⟩ other
                    rw [spoken_eq] at identifiers
                    obtain ⟨length, length_eq⟩ :=
                      Nat.exists_eq_succ_of_ne_zero (by omega : keyword.length ≠ 0)
                    rw [length_eq] at identifiers ⊢
                    exact List.forall_mem_cons.mp fun other member => identifiers other member
                  rw [List.countP_cons_of_pos (by simp [quote, occurs]),
                    List.countP_cons_of_pos occurs, width_eq,
                    lexemeWidth, quote, ih (.inr ⟨rfl, later⟩)]
                  rfl

theorem count_of_isName {keyword : Text} (name : IsName keyword) (text : Text) :
    count keyword text = (Site.start text).code.countP (Site.hasWord keyword) :=
  countP_walk name (.inl rfl)

end Word

/-! ## Calls -/

namespace Policy

/-- A function is called at some place where its name is. -/
theorem calls_iff_exists {name : Text} (is_name : IsName name) (text : Text) :
    calls name text = true ↔
      ∃ place, (atOffset text place).hasWord name = true ∧
        opensCall (atOffset text place) name.length = true := by
  have called (site : Site) : (!site.afterIdentifier && site.rest.head?.any Byte.isIdentifier &&
      spellsCall name site.rest) = (site.hasWord name && opensCall site name.length) := by
    rw [hasWord_eq_spells is_name, spellsCall, ← Bool.and_assoc]
    cases spelled : spells name site.rest with
    | false => simp
    | true => rw [(opensCall_of_spells spelled).1]
  have everywhere_eq := @any_everywhere (spellsCall name) [] text 0 0
  simp only [called] at everywhere_eq
  rw [calls_eq_finds is_name]
  change finds (spellsCall name) (([] : Text).head?.any Byte.isIdentifier) text = true ↔ _
  rw [← everywhere_eq, ← start, ← atOffset_zero, ← List.isSome_find?,
    find?_everywhere_isSome fun _ _ _ _ _ => rfl]
  simp only [Nat.zero_le, true_and, Bool.and_eq_true]
  exact exists_congr fun place => and_iff_right_of_imp fun found =>
    Word.lt_length_of_hasWord found.1

/-! ## String literals and semicolons before a place -/

/-- The string literal that begins at the one place ends before the other, and nothing but white
space is between. -/
def EndsBefore (literal site : Site) : Prop :=
  literal.byte? = some Byte.apostrophe ∧
    ∃ gap, (∀ byte ∈ gap, byte.isSpace = true) ∧
      literal.rest.drop (Literal.width .standard literal) = gap ++ site.rest

private theorem length_rest_le {back text : Text} {offset depth : Nat} {site : Site}
    (listed : site ∈ lexemes ⟨back, text, offset, depth⟩) : site.rest.length ≤ text.length := by
  have whole := congrArg List.length (back_rest_of_mem_walk listed)
  have counted := offset_of_mem_walk listed
  have later := le_offset_of_mem_walk listed
  simp only [List.length_append, List.length_reverse] at whole
  dsimp only at whole counted later
  omega

/-- Only white space is before the end of a text when the first byte is some and only
white space is after it. -/
private theorem exists_gap_cons {byte : Byte} {text rest : Text}
    (shorter : rest.length ≤ text.length) :
    (∃ gap, (∀ byte ∈ gap, byte.isSpace = true) ∧ byte :: text = gap ++ rest) ↔
      byte.isSpace = true ∧ ∃ gap, (∀ byte ∈ gap, byte.isSpace = true) ∧ text = gap ++ rest := by
  constructor
  · rintro ⟨gap, blank, split⟩
    cases gap with
    | nil =>
        have lengths := congrArg List.length split
        simp only [List.length_cons, List.nil_append] at lengths
        omega
    | cons first gap =>
        obtain ⟨rfl, text_eq⟩ := List.cons.inj split
        obtain ⟨space, blank⟩ := List.forall_mem_cons.mp blank
        exact ⟨space, gap, blank, text_eq⟩
  · rintro ⟨space, gap, blank, rfl⟩
    exact ⟨byte :: gap, List.forall_mem_cons.mpr ⟨space, blank⟩, rfl⟩

/-- A place outside literals follows a string when one that began after `back` ends before it, or
when `back` ends in one and only white space comes after that. -/
private theorem followsString_of_mem_code {back text : Text} {offset depth : Nat} {site : Site}
    (member : site ∈ code ⟨back, text, offset, depth⟩) :
    followsString site = true ↔
      (∃ literal ∈ literals ⟨back, text, offset, depth⟩, EndsBefore literal site) ∨
        (back.dropWhile Byte.isSpace).head? = some Byte.apostrophe ∧
          ∃ gap, (∀ byte ∈ gap, byte.isSpace = true) ∧ text = gap ++ site.rest := by
  induction back, text using lexeme_induction .standard generalizing offset depth with
  | nil back => simp [code_nil] at member
  | code back byte rest plain ih =>
      rw [code_cons _ _ _ _ plain, List.mem_cons] at member
      rw [literals_cons _ _ _ _ plain]
      obtain rfl | member := member
      · have none_before :
          ¬ ∃ literal ∈ literals ⟨byte :: back, rest, offset + 1, depthAfter byte depth⟩,
            EndsBefore literal ⟨back, byte :: rest, offset, depth⟩ := by
          rintro ⟨literal, listed, -, gap, -, drop_eq⟩
          have shorter := length_rest_le (List.mem_filter.mp listed).1
          have lengths := congrArg List.length drop_eq
          simp only [List.length_drop, List.length_append, List.length_cons] at lengths
          omega
        rw [or_iff_right none_before, followsString, beq_iff_eq]
        exact ⟨fun follows => ⟨follows, [], by simp, rfl⟩, And.left⟩
      · rw [exists_gap_cons (length_rest_le (List.mem_filter.mp member).1)]
        refine (ih member).trans (or_congr_right ?_)
        cases space : byte.isSpace with
        | true => rw [List.dropWhile_cons_of_pos space, and_iff_right rfl]
        | false =>
            rw [List.dropWhile_cons_of_neg (by simp [space]), List.head?_cons, Option.some.injEq]
            refine ⟨fun ⟨mark, _⟩ => absurd plain (by rw [mark]; decide), ?_⟩
            rintro ⟨-, visible, -⟩
            cases visible
  | literal back mark content rest quote closed ih =>
      rw [code_literal _ _ _ _ _ quote closed] at member
      rw [literals_literal _ _ _ _ _ quote closed, List.exists_mem_cons_iff, or_assoc]
      have shorter := length_rest_le (List.mem_filter.mp member).1
      have visible := Byte.isSpace_of_isQuote mark quote
      have last : content.getLast? = some mark := by
        have closes := getLast?_take_of_closing? closed
        rwa [List.take_left] at closes
      have ends : ((content.reverse ++ mark :: back).dropWhile Byte.isSpace).head? = some mark := by
        obtain rfl | ⟨front, final, rfl⟩ := List.eq_nil_or_concat content
        · cases last
        · obtain rfl : final = mark := by simpa using last
          simp [visible]
      have width_eq :
          Literal.width .standard ⟨back, mark :: (content ++ rest), offset, depth⟩ =
            content.length + 1 := by
        simp [width_cons, closed]
      have here : EndsBefore ⟨back, mark :: (content ++ rest), offset, depth⟩ site ↔
          ((content.reverse ++ mark :: back).dropWhile Byte.isSpace).head? = some Byte.apostrophe ∧
            ∃ gap, (∀ byte ∈ gap, byte.isSpace = true) ∧ rest = gap ++ site.rest := by
        rw [EndsBefore, ends, width_eq, List.drop_succ_cons, List.drop_left]
        rfl
      have none_before : ¬ ((back.dropWhile Byte.isSpace).head? = some Byte.apostrophe ∧
          ∃ gap, (∀ byte ∈ gap, byte.isSpace = true) ∧
            mark :: (content ++ rest) = gap ++ site.rest) := by
        rw [exists_gap_cons (by rw [List.length_append]; omega), visible]
        rintro ⟨-, impossible, -⟩
        cases impossible
      rw [or_iff_left none_before, here, or_comm]
      exact ih member
  | unclosed back mark rest quote unclosed =>
      rw [code_unclosed _ _ _ _ quote unclosed] at member
      cases member

theorem followsString_iff {text : Text} {site : Site} (member : site ∈ (start text).code) :
    followsString site = true ↔ ∃ literal ∈ (start text).literals, EndsBefore literal site := by
  refine (followsString_of_mem_code member).trans (or_iff_left ?_)
  rintro ⟨ends, -⟩
  cases ends

/-- A list is split at its head or behind it. -/
private theorem exists_split_cons {α : Type} {holds : List α → α → Prop} {head : α}
    {tail : List α} :
    (∃ earlier member later, head :: tail = earlier ++ member :: later ∧ holds earlier member) ↔
      holds [] head ∨ ∃ earlier member later, tail = earlier ++ member :: later ∧
      holds (head :: earlier) member := by
  constructor
  · rintro ⟨earlier, member, later, split, found⟩
    cases earlier with
    | nil =>
        obtain ⟨rfl, -⟩ := List.cons.inj split
        exact .inl found
    | cons first earlier =>
        obtain ⟨rfl, rest⟩ := List.cons.inj split
        exact .inr ⟨earlier, member, later, rest, found⟩
  · rintro (found | ⟨earlier, member, later, rfl, found⟩)
    · exact ⟨[], head, tail, rfl, found⟩
    · exact ⟨head :: earlier, member, later, rfl, found⟩

private theorem breaksOut_sites (text : Text) (terminated : Bool) (sites : List Site) :
    breaksOut text terminated sites = true ↔
      ∃ earlier site later, sites = earlier ++ site :: later ∧ site.hasWord (ascii "UNION") = true ∧
        (terminated = true ∨ (∃ ending ∈ earlier, ending.byte? = some Byte.semicolon) ∨
          followsString site = true) ∧
        ∃ place, site.offset + (ascii "UNION").length ≤ place ∧
          (atOffset text place).hasWord (ascii "SELECT") = true := by
  have union_length (site : Site) (length : Nat)
      (found : site.word? (ascii "UNION") = some length) :
      length = (ascii "UNION").length := by
    rw [word?_of_isName (by decide)] at found
    split at found
    · exact (Option.some.inj found).symm
    · cases found
  induction sites generalizing terminated with
  | nil => exact ⟨fun broken => absurd broken Bool.false_ne_true,
        fun ⟨_, _, _, split, _⟩ => by simp at split⟩
  | cons site sites ih =>
      rw [exists_split_cons, breaksOut]
      split
      · rename_i ends
        have ends : site.byte? = some Byte.semicolon := by simpa using ends
        have silent : site.hasWord (ascii "UNION") = false := by
          refine Bool.eq_false_iff.mpr fun union => ?_
          have spoken_eq := (hasWord_of_isName (by decide) site).mp union
          obtain ⟨-, byte, rest, rest_eq, identifier⟩ :=
            exists_of_spoken_ne (by rw [spoken_eq]; decide)
          rw [byte?, rest_eq, List.head?_cons, Option.some.injEq] at ends
          exact absurd identifier (by rw [ends]; decide)
        simp [ih, silent, ends]
      · rename_i ends
        have ends : site.byte? ≠ some Byte.semicolon := by simpa using ends
        split
        · rename_i silent
          simp [ih, hasWord, silent, ends]
        · rename_i length found
          obtain rfl := union_length site length found
          simp [ih, hasWord, found, ends, Word.first?_isSome_iff]

/-- A `UNION` breaks out when a semicolon outside literals comes before it, or a string literal
directly, and `SELECT` comes somewhere after it. -/
theorem breaksOut_iff (text : Text) :
    breaksOut text false (start text).code = true ↔
      ∃ site ∈ (start text).code, site.hasWord (ascii "UNION") = true ∧
        ((∃ earlier ∈ (start text).code, earlier.offset < site.offset ∧
            earlier.byte? = some Byte.semicolon) ∨
          ∃ literal ∈ (start text).literals, EndsBefore literal site) ∧
        ∃ place, site.offset + (ascii "UNION").length ≤ place ∧
          (atOffset text place).hasWord (ascii "SELECT") = true := by
  rw [breaksOut_sites]
  constructor
  · rintro ⟨earlier, site, later, split, union, before, selected⟩
    have member : site ∈ (start text).code := by simp [split]
    have sorted := pairwise_code_start text
    rw [split, List.pairwise_append] at sorted
    refine ⟨site, member, union, ?_, selected⟩
    obtain terminated | ⟨ending, ending_mem, ends⟩ | follows := before
    · exact absurd terminated Bool.false_ne_true
    · exact .inl ⟨ending, by simp [split, ending_mem],
        sorted.2.2 ending ending_mem site (by simp), ends⟩
    · exact .inr ((followsString_iff member).mp follows)
  · rintro ⟨site, member, union, before, selected⟩
    obtain ⟨earlier, later, split⟩ := List.append_of_mem member
    have sorted := pairwise_code_start text
    rw [split, List.pairwise_append, List.pairwise_cons] at sorted
    refine ⟨earlier, site, later, split, union, ?_, selected⟩
    obtain ⟨ending, ending_mem, ends_before, ends⟩ | follows := before
    · refine .inr (.inl ⟨ending, ?_, ends⟩)
      rw [split, List.mem_append, List.mem_cons] at ending_mem
      obtain early | rfl | late := ending_mem
      · exact early
      · exact absurd ends_before (lt_irrefl _)
      · exact absurd (sorted.2.1.1 ending late) ends_before.asymm
    · exact .inr (.inr ((followsString_iff member).mpr follows))

/-- Statements are stacked when something else follows any semicolon, and not only the first one. -/
theorem isStacked_iff (text : Text) :
    isStacked text = true ↔
      ∃ site ∈ (start text).code, site.byte? = some Byte.semicolon ∧
        ∃ byte ∈ site.rest, byte.isSpace = false ∧ byte ≠ Byte.semicolon := by
  constructor
  · intro stacked
    rw [isStacked] at stacked
    cases found : (start text).code.find? fun site => site.byte? == some Byte.semicolon with
    | none => rw [found] at stacked; exact absurd stacked Bool.false_ne_true
    | some site =>
        rw [found] at stacked
        obtain ⟨byte, member, other⟩ := List.any_eq_true.mp stacked
        exact ⟨site, List.mem_of_find?_eq_some found, by simpa using List.find?_some found, byte,
          member, by simpa using other⟩
  · rintro ⟨site, member, ends, byte, byte_mem, visible, other⟩
    by_contra single
    have trailing :=
      trails_of_not_isStacked (Bool.eq_false_iff.mpr single) member ends byte byte_mem
    simp [Token.trails, visible, other] at trailing

theorem firstKeyword?_nil (text : Text) : firstKeyword? [] text = none :=
  rfl

/-- A keyword listed last is found if it occurs before all others. -/
theorem firstKeyword?_concat (keywords : List Text) (keyword text : Text) :
    firstKeyword? (keywords ++ [keyword]) text =
      match Word.first? keyword text 0, firstKeyword? keywords text with
      | none, best => best
      | some offset, none => some (offset, keyword)
      | some offset, some found =>
          if offset < found.1 then some (offset, keyword) else some found := by
  rw [firstKeyword?, List.foldl_append]
  rfl

theorem firstKeyword?_eq_none_iff {keywords : List Text} {text : Text} :
    firstKeyword? keywords text = none ↔
      ∀ keyword ∈ keywords, ∀ place, (atOffset text place).hasWord keyword = false := by
  induction keywords using List.reverseRecOn with
  | nil => simp [firstKeyword?_nil]
  | append_singleton keywords keyword ih =>
      rw [firstKeyword?_concat, List.forall_mem_append, List.forall_mem_singleton, ← ih]
      have absent := @Word.first?_eq_none_iff keyword text 0
      simp only [Nat.zero_le, true_imp_iff] at absent
      rw [← absent]
      cases Word.first? keyword text 0 <;> cases firstKeyword? keywords text <;> simp
      split <;> simp

/-- The keyword that is found occurs at a place before which none does, and is listed
before all others there. -/
private theorem firstKeyword?_sound {keywords : List Text} {text keyword : Text} {place : Nat}
    (found : firstKeyword? keywords text = some (place, keyword)) :
    FirstSuch (fun member => (atOffset text place).hasWord member = true) keywords keyword ∧
      ∀ member ∈ keywords, ∀ earlier < place, (atOffset text earlier).hasWord member = false := by
  induction keywords using List.reverseRecOn generalizing keyword place with
  | nil => cases found
  | append_singleton keywords last ih =>
      rw [firstKeyword?_concat] at found
      simp only [List.forall_mem_append, List.forall_mem_singleton]
      cases occurs : Word.first? last text 0 with
      | none =>
          rw [occurs] at found
          obtain ⟨first, none_before⟩ := ih found
          exact ⟨first.append_right _, none_before, fun earlier _ =>
            Word.first?_eq_none_iff.mp occurs earlier (Nat.zero_le _)⟩
      | some offset =>
          obtain ⟨-, at_offset, none_earlier⟩ := Word.first?_eq_some_iff.mp occurs
          rw [occurs] at found
          cases best : firstKeyword? keywords text with
          | none =>
              have absent := firstKeyword?_eq_none_iff.mp best
              rw [best] at found
              obtain ⟨rfl, rfl⟩ := Prod.mk.inj (Option.some.inj found)
              exact ⟨⟨keywords, [], rfl, at_offset,
                fun other member => by simp [absent other member]⟩,
                fun member listed earlier _ => absent member listed earlier,
                fun earlier before => none_earlier earlier (Nat.zero_le _) before⟩
          | some other =>
              obtain ⟨first, none_before⟩ := ih best
              rw [best] at found
              dsimp only at found
              split at found
              · rename_i sooner
                obtain ⟨rfl, rfl⟩ := Prod.mk.inj (Option.some.inj found)
                exact ⟨⟨keywords, [], rfl, at_offset, fun other member => by
                    simp [none_before other member _ sooner]⟩,
                  fun member listed earlier before =>
                    none_before member listed earlier (before.trans sooner),
                  fun earlier before => none_earlier earlier (Nat.zero_le _) before⟩
              · rename_i later
                obtain rfl := Option.some.inj found
                exact ⟨first.append_right _, none_before, fun earlier before =>
                  none_earlier earlier (Nat.zero_le _) (by omega)⟩

/-- Of the keywords in a text the one that occurs first is found, of two at one place
the one listed first. -/
theorem firstKeyword?_eq_some_iff {keywords : List Text} {text keyword : Text} {place : Nat} :
    firstKeyword? keywords text = some (place, keyword) ↔
      FirstSuch (fun member => (atOffset text place).hasWord member = true) keywords keyword ∧
        ∀ member ∈ keywords, ∀ earlier < place, (atOffset text earlier).hasWord member = false := by
  refine ⟨firstKeyword?_sound, fun ⟨first, none_before⟩ => ?_⟩
  cases found : firstKeyword? keywords text with
  | none =>
      exact absurd first.holds (by simp [firstKeyword?_eq_none_iff.mp found keyword first.mem])
  | some other =>
      obtain ⟨other_place, other⟩ := other
      obtain ⟨other_first, none_earlier⟩ := firstKeyword?_sound found
      obtain rfl : other_place = place := by
        rcases Nat.lt_trichotomy other_place place with before | same | before
        · exact absurd other_first.holds (by simp [none_before other other_first.mem _ before])
        · exact same
        · exact absurd first.holds (by simp [none_earlier keyword first.mem _ before])
      have same :=
        (find?_eq_some_iff_firstSuch.mpr other_first).symm.trans
          (find?_eq_some_iff_firstSuch.mpr first)
      rw [Option.some.inj same]

end Policy

namespace Literal

theorem backslashBeforeApostrophe?_isSome_iff (text : Text) :
    (backslashBeforeApostrophe? text).isSome = true ↔
      [Byte.backslash, Byte.apostrophe] <:+: text := by
  fun_induction backslashBeforeApostrophe? text with
  | case1 first second rest escaped =>
      rw [Bool.and_eq_true, beq_iff_eq, beq_iff_eq] at escaped
      exact iff_of_true rfl ⟨[], rest, by simp [escaped]⟩
  | case2 first second rest other ih =>
      rw [Option.isSome_map, ih, @List.infix_cons_iff _ _ first, List.cons_prefix_cons,
        List.cons_prefix_cons]
      refine (or_iff_right fun ⟨same, next, _⟩ => other ?_).symm
      simp [← same, ← next]
  | case3 text short =>
      refine iff_of_false Bool.false_ne_true fun escaped => ?_
      have two := escaped.length_le
      match text, short with
      | first :: second :: rest, short => exact short first second rest rfl

theorem ambiguousBackslash?_isSome_iff (text : Text) :
    (ambiguousBackslash? text).isSome = true ↔
      ∃ literal ∈ (start text).literals, literal.byte? = some Byte.apostrophe ∧
        opensEscapeString literal = false ∧
          [Byte.backslash, Byte.apostrophe] <:+:
          (literal.rest.take (width .standard literal)).drop 1 := by
  rw [ambiguousBackslash?, List.findSome?_isSome_iff]
  refine exists_congr fun literal => and_congr_right fun _ => ?_
  split
  · rename_i plain
    rw [Bool.and_eq_true, beq_iff_eq, Bool.not_eq_true'] at plain
    rw [Option.isSome_map, backslashBeforeApostrophe?_isSome_iff]
    simp [plain]
  · rename_i other
    rw [Bool.and_eq_true, beq_iff_eq, Bool.not_eq_true', not_and] at other
    simp only [Option.isSome_none, Bool.false_eq_true, false_iff]
    rintro ⟨mark, plain, -⟩
    exact other mark plain

end Literal

end TenantScope
