import TenantScope.Proofs.Aliasing

/-!
# What is left when columns are replaced

A text is parted before its first `WHERE` and behind the region of it.  Columns are replaced in the
region only, which leaves the signs, the clauses and the table of the text as they were, so no
column is left to replace.
-/

namespace TenantScope

open Text Site Literal

namespace Token

/-! ## Levels and ends of tokens -/

/-- Only its parentheses matter for how many are open at the end of a text. -/
theorem endDepth_spell {back : Text} {previous : Option Token} {tokens : List Token}
    (after : After back previous) (lexed : Lexed previous tokens) :
    ∀ offset depth, endDepth ⟨back, spell tokens, offset, depth⟩ =
      (parens tokens).foldl (fun depth paren => depthAfter paren depth) depth := by
  refine token_induction ?nil ?word ?byte ?literal ?remnant after lexed
  case nil =>
    intro back offset depth
    exact endDepth_nil _ _ back
  case word =>
    intro back written tokens name begins ends ih offset depth
    rw [spell_cons, bytes, endDepth_word name, ih]
    rfl
  case byte =>
    intro back plain tokens identifier quote ih offset depth
    rw [spell_cons, bytes, List.singleton_append, endDepth_cons _ _ _ _ quote, ih]
    by_cases paren : plain = Byte.openParen ∨ plain = Byte.closeParen
    · rw [parens_cons_of_paren paren, List.foldl_cons]
    · rw [parens_cons_of_flat paren, depthAfter_of_flat (not_or.mp paren)]
  case literal =>
    intro back mark content tokens quote closed ih offset depth
    rw [spell_cons, bytes, List.cons_append, endDepth_literal _ _ _ _ _ quote closed, ih]
    rfl
  case remnant =>
    intro back mark content quote unclosed offset depth
    have code_eq := code_unclosed offset depth back content quote unclosed
    have unnested : parens [remnant mark content] = [] := rfl
    simp [spell, bytes, endDepth, code_eq, unnested]

/-- Texts end in the same byte if their tokens end in the same one. -/
theorem getLast?_spell {previous : Option Token} {tokens others : List Token}
    (lexed : Lexed previous tokens) (same : others.getLast? = tokens.getLast?) :
    (spell others).getLast? = (spell tokens).getLast? := by
  rcases List.eq_nil_or_concat tokens with rfl | ⟨front, last, rfl⟩
  · rw [List.getLast?_nil, List.getLast?_eq_none_iff] at same
    rw [same]
  · rw [List.concat_eq_append, List.getLast?_concat, List.getLast?_eq_some_iff] at same
    obtain ⟨before, rfl⟩ := same
    rw [List.concat_eq_append] at lexed
    have nonempty := bytes_ne_nil (linked_append.mp lexed).2.1.2
    rw [List.concat_eq_append, spell_append, spell_append, spell_cons, spell_nil, List.append_nil,
      List.getLast?_append_of_ne_nil _ nonempty, List.getLast?_append_of_ne_nil _ nonempty]

/-- Only the last one of tokens may be a literal that is never closed. -/
theorem whole_of_lexed_append {previous : Option Token} {tokens others : List Token}
    (lexed : Lexed previous (tokens ++ others)) (more : others ≠ []) : Whole tokens := by
  induction tokens generalizing previous with
  | nil => simp [Whole]
  | cons token tokens ih =>
      rw [Whole, List.forall_mem_cons]
      refine ⟨?_, ih lexed.2⟩
      cases token with
      | remnant mark content =>
          have last : tokens ++ others = [] := eq_nil_of_remnant lexed
          exact absurd (List.append_eq_nil_iff.mp last).2 more
      | _ => rfl

/-! ## Reaching the end of a region -/

theorem reaches_append {stop offset : Nat} {front : List Token} (whole : Whole front)
    (rest : List Token) :
    Reaches stop offset (front ++ rest) ↔ Reaches stop (offset + (spell front).length) rest := by
  induction front generalizing offset with
  | nil => rfl
  | cons token front ih =>
      rw [Whole, List.forall_mem_cons] at whole
      have step : Reaches stop offset (token :: (front ++ rest)) ↔
          Reaches stop (offset + token.bytes.length) (front ++ rest) := by
        cases token with
        | remnant mark content => exact absurd whole.1 (by simp [isRemnant])
        | _ => exact Iff.rfl
      rw [List.cons_append, step, ih whole.2, spell_cons, List.length_append, Nat.add_assoc]

/-- Tokens are all closed, or the last one of them is the one that is not. -/
theorem whole_or_exists {previous : Option Token} {tokens : List Token}
    (lexed : Lexed previous tokens) : Whole tokens ∨
      ∃ front mark content, tokens = front ++ [remnant mark content] ∧ Whole front := by
  rcases List.eq_nil_or_concat tokens with rfl | ⟨front, last, rfl⟩
  · exact .inl (by simp [Whole])
  · rw [List.concat_eq_append] at lexed ⊢
    have whole := whole_of_lexed_append lexed (List.cons_ne_nil last [])
    cases last with
    | remnant mark content => exact .inr ⟨front, mark, content, rfl, whole⟩
    | _ => exact .inl (List.forall_mem_append.mpr ⟨whole, by simp [isRemnant]⟩)

theorem reaches_of_whole {stop offset : Nat} {tokens : List Token} (whole : Whole tokens) :
    Reaches stop offset tokens ↔ offset + (spell tokens).length = stop := by
  have split := @reaches_append stop offset _ whole []
  rwa [List.append_nil] at split

theorem reaches_of_remnant {stop offset : Nat} {front : List Token} (whole : Whole front)
    (mark : Byte) (content : Text) :
    Reaches stop offset (front ++ [remnant mark content]) ↔
      offset + (spell front).length < stop ∧
        stop ≤ offset + (spell (front ++ [remnant mark content])).length := by
  rw [reaches_append whole, Reaches, spell_append, List.length_append]
  simp [bytes, Nat.add_assoc]

/-- Tokens that no word ends go on with those of any text that a word begins. -/
theorem exists_lexed_append {tokens : List Token} {rest : Text} (lexed : Lexed none tokens)
    (whole : Whole tokens) (ends : (spell tokens).reverse.head?.any Byte.isIdentifier = false)
    (begins : rest.head?.any Byte.isIdentifier = true) :
    ∃ others, Lexed none (tokens ++ others) ∧ spell others = rest := by
  have after := After.nil.of_lexed lexed whole
  rw [List.append_nil, Option.or_none] at after
  have last_mem {test : Token → Bool} (last : tokens.getLast?.any test = true) :
      ∃ token ∈ tokens, test token = true := by
    cases last_eq : tokens.getLast? with
    | none => simp [last_eq] at last
    | some token => exact ⟨token, List.mem_of_getLast? last_eq, by simpa [last_eq] using last⟩
  have unfinished : tokens.getLast?.any isRemnant = false := Bool.eq_false_iff.mpr fun remnant => by
    obtain ⟨token, member, remnant⟩ := last_mem remnant
    rw [whole token member] at remnant
    cases remnant
  have single : ∀ mark, tokens.getLast?.any (isMarked mark) = true → rest.head? ≠ some mark := by
    intro mark marked head_eq
    obtain ⟨token, member, is_marked⟩ := last_mem marked
    obtain ⟨before, later, rfl⟩ := List.append_of_mem member
    cases token with
    | literal other content =>
        obtain rfl : other = mark := by simpa [isMarked] using is_marked
        have quote := (linked_append.mp lexed).2.1.2.1
        simp [head_eq, Byte.isIdentifier_of_isQuote other quote] at begins
    | _ => simp [isMarked] at is_marked
  have wordless := after.word.symm.trans ends
  obtain ⟨others, others_lexed, spelled⟩ :=
    exists_lexed_after after unfinished (fun word => by rw [wordless] at word; cases word) single
  refine ⟨others, linked_append.mpr ⟨lexed, ?_⟩, spelled⟩
  rwa [Option.or_none]

/-- Tokens behind which there are semicolons and white space at most are parted there, unless they
end in a literal that is never closed. -/
theorem exists_reaches {stop offset : Nat} {previous : Option Token} {tokens : List Token}
    (lexed : Lexed previous tokens) (begins : offset ≤ stop)
    (ends : stop ≤ offset + (spell tokens).length)
    (trailing : ∀ byte ∈ (spell tokens).drop (stop - offset), trails byte = true) :
    ∃ region back, tokens = region ++ back ∧ Reaches stop offset region := by
  induction tokens generalizing previous offset with
  | nil =>
      rw [spell_nil, List.length_nil] at ends
      exact ⟨[], [], rfl, Nat.le_antisymm begins ends⟩
  | cons token tokens ih =>
      by_cases here : offset = stop
      · exact ⟨[], token :: tokens, rfl, here⟩
      · have follows := lexed.1.2
        -- A word or a literal goes on to a byte that does not trail.
        have within (last : ∃ lead final, token.bytes = lead ++ [final] ∧ trails final = false) :
            offset + token.bytes.length ≤ stop := by
          obtain ⟨lead, final, bytes_eq, visible⟩ := last
          by_contra beyond
          have member : final ∈ (spell (token :: tokens)).drop (stop - offset) := by
            have length_eq : token.bytes.length = lead.length + 1 := by rw [bytes_eq]; simp
            rw [spell_cons, bytes_eq, List.append_assoc,
              List.drop_append_of_le_length (by omega)]
            simp
          rw [trailing final member] at visible
          cases visible
        have go (fits : offset + token.bytes.length ≤ stop) (whole : token.isRemnant = false) :
            ∃ region back, token :: tokens = region ++ back ∧ Reaches stop offset region := by
          rw [spell_cons, List.length_append] at ends
          obtain ⟨region, back, rfl, reaches⟩ := ih lexed.2 fits (by omega) (by
            intro byte member
            refine trailing byte ?_
            have more : stop - offset = token.bytes.length +
                (stop - (offset + token.bytes.length)) := by
              omega
            rwa [spell_cons, more, ← List.drop_drop, List.drop_left])
          refine ⟨token :: region, back, rfl, ?_⟩
          have step := (@reaches_append stop offset [token]
            (by simpa [Whole] using whole) region).mpr
          exact step (by simpa using reaches)
        cases token with
        | word written =>
            obtain ⟨lead, letter, rfl⟩ :=
              (List.eq_nil_or_concat written).resolve_left follows.1.nonempty
            refine go (within ⟨lead, letter, by simp [bytes], ?_⟩) rfl
            exact trails_of_isIdentifier (follows.1.identifiers letter (by simp))
        | byte plain => exact go (by simp only [bytes, List.length_singleton]; omega) rfl
        | literal mark content =>
            have last := getLast?_of_closing? follows.2.2
            obtain ⟨lead, rfl⟩ := List.getLast?_eq_some_iff.mp last
            exact go (within ⟨mark :: lead, mark, by simp [bytes], trails_of_isQuote follows.1⟩) rfl
        | remnant mark content =>
            obtain rfl := eq_nil_of_remnant lexed
            refine ⟨[remnant mark content], [], rfl, ?_, ?_⟩
            · omega
            · simpa [bytes] using ends

end Token

/-! ## Parts of a text -/

open Token in
/-- The tokens of a text before an offset, from there to the end of a region, and behind it. -/
structure Parts (text : Text) (place stop : Nat) (front region back : List Token) : Prop where
  lexed : Lexed none (front ++ (region ++ back))
  spelled : spell (front ++ (region ++ back)) = text
  whole : Whole front
  begins : (spell front).length = place
  reaches : Reaches stop place region
  ends : Whole region ∨ ∀ byte ∈ text.drop stop, trails byte = true

namespace Region

variable {text : Text} {kind : Clause} {offset : Nat} {before inside after : List SignAt}

open Token

/-- Tokens that end at a halt go on with those of a text that begins with a sign. -/
theorem exists_lexed_of_sign? {tokens : List Token} {rest : Text} {sign : Sign}
    (lexed : Lexed none tokens) (halt : Halt (spell tokens))
    (signed : (start rest).sign? = some sign) :
    ∃ others, Lexed none (tokens ++ others) ∧ spell others = rest := by
  obtain ⟨byte, rest, rfl, identifier, -⟩ := exists_of_sign? signed
  exact exists_lexed_append lexed ((closed_start_spell lexed).mp halt.closed) halt.word
    (by simpa using identifier)

/-- A text has parts at each of its regions. -/
theorem exists_parts (region : Region text kind offset before inside after) :
    ∃ front tokens back, Parts text offset (stopBefore text after) front tokens back := by
  have own : (⟨.clause kind, offset⟩ : SignAt) ∈ (start text).signs :=
    region.signs_eq ▸ List.mem_append_right _ List.mem_cons_self
  obtain ⟨halt, signed, bounded⟩ := halt_of_mem_signs own
  simp only at halt signed bounded
  obtain ⟨front, front_lexed, front_eq⟩ := exists_lexed (text.take offset)
  have length_eq : (spell front).length = offset := by
    rw [front_eq, List.length_take, Nat.min_eq_left bounded.le]
  have whole := (closed_start_spell front_lexed).mp (front_eq ▸ halt.closed)
  have joined {tokens others : List Token} {stop : Nat} (first : spell tokens = text.take stop)
      (second : spell others = text.drop stop) : spell (tokens ++ others) = text := by
    rw [spell_append, first, second, List.take_append_drop]
  cases after with
  | nil =>
      obtain ⟨others, lexed, others_eq⟩ :=
        exists_lexed_of_sign? front_lexed (front_eq ▸ halt) signed
      have earlier : offset < Statement.bodyEnd text := Statement.offset_lt_bodyEnd own
      have ends := Statement.bodyEnd_le text
      have total : offset + (Statement.bodyEnd text - offset) = Statement.bodyEnd text := by omega
      obtain ⟨tokens, back, rfl, reaches⟩ := exists_reaches (linked_append.mp lexed).2 earlier.le
        (by rw [others_eq, List.length_drop]; omega)
        (by rw [others_eq, List.drop_drop, total]; exact Statement.trails_of_mem_drop text)
      exact ⟨front, tokens, back, lexed, joined front_eq others_eq, whole, length_eq, reaches,
        .inr (Statement.trails_of_mem_drop text)⟩
  | cons found after =>
      have split : (start text).signs =
          (before ++ ⟨.clause kind, offset⟩ :: inside) ++ found :: after := by
        rw [region.signs_eq]
        simp
      have later : offset < found.offset := region.offset_lt (by simp)
      have found_mem : found ∈ (start text).signs := by simp [split]
      obtain ⟨stop_halt, stop_signed, stop_inside⟩ := halt_of_mem_signs found_mem
      have own' : (⟨.clause kind, offset⟩ : SignAt) ∈ (start (text.take found.offset)).signs := by
        simp [(signs_split split).1]
      obtain ⟨-, signed', -⟩ := halt_of_mem_signs own'
      obtain ⟨tokens, tokens_lexed, tokens_eq⟩ :=
        exists_lexed_of_sign? front_lexed (front_eq ▸ halt) signed'
      have taken : spell (front ++ tokens) = text.take found.offset := by
        rw [spell_append, front_eq, tokens_eq]
        conv => rhs; rw [← List.take_append_drop offset (text.take found.offset), List.take_take,
          Nat.min_eq_left later.le]
      obtain ⟨back, lexed, back_eq⟩ :=
        exists_lexed_of_sign? tokens_lexed (taken ▸ stop_halt) stop_signed
      have closed := (closed_start_spell tokens_lexed).mp (taken ▸ stop_halt.closed)
      have whole_tokens := (List.forall_mem_append.mp closed).2
      refine ⟨front, tokens, back, ?_, ?_, whole, length_eq, ?_, .inl whole_tokens⟩
      · rwa [← List.append_assoc]
      · rw [← List.append_assoc]
        exact joined taken back_eq
      · rw [reaches_of_whole whole_tokens, tokens_eq, List.length_drop,
          List.length_take, Nat.min_eq_left stop_inside.le]
        exact Nat.add_sub_of_le later.le

end Region

namespace Parts

open Token

variable {text column replacement : Text} {place stop : Nat} {front region back : List Token}

theorem take_start (parts : Parts text place stop front region back) :
    text.take place = spell front ∧ text.drop place = spell (region ++ back) := by
  rw [← parts.spelled, ← parts.begins, spell_append]
  exact ⟨List.take_left, List.drop_left⟩

/-- The tokens up to the end of the region are those of a text. -/
theorem lexed_front (parts : Parts text place stop front region back) :
    Lexed none (front ++ region) := by
  have lexed := parts.lexed
  rw [← List.append_assoc] at lexed
  exact (linked_append.mp lexed).1

/-- Where all literals of a region are closed, it ends behind its tokens. -/
theorem take_stop (parts : Parts text place stop front region back) (closed : Whole region) :
    stop = (spell (front ++ region)).length ∧ text.take stop = spell (front ++ region) ∧
      text.drop stop = spell back := by
  have length_eq := (reaches_of_whole closed).mp parts.reaches
  rw [← parts.begins, ← List.length_append, ← spell_append] at length_eq
  rw [← parts.spelled, ← List.append_assoc, spell_append (front ++ region), ← length_eq]
  exact ⟨rfl, List.take_left, List.drop_left⟩

/-- All literals of a region are closed if a sign stands behind it. -/
theorem whole_of_sign? (parts : Parts text place stop front region back) {sign : Sign}
    (signed : (start (text.drop stop)).sign? = some sign) : Whole region := by
  refine parts.ends.resolve_right fun trailing => ?_
  obtain ⟨byte, rest, drop_eq, identifier, -⟩ := exists_of_sign? signed
  have trails := trailing byte (by simp [drop_eq])
  rw [trails_of_isIdentifier identifier] at trails
  cases trails

/-- Nothing follows a literal that is never closed. -/
theorem back_eq_nil (parts : Parts text place stop front region back) (unclosed : ¬ Whole region) :
    back = [] := by
  by_contra more
  have lexed := parts.lexed
  rw [← List.append_assoc] at lexed
  exact unclosed (List.forall_mem_append.mp (whole_of_lexed_append lexed more)).2

/-- The text up to the end of a region is closed unless a literal of the region is not. -/
theorem closed_take (parts : Parts text place stop front region back) :
    Closed (start (text.take stop)) ↔ Whole region := by
  have lexed := parts.lexed_front
  constructor
  · intro closed
    by_contra unclosed
    have trailing := parts.ends.resolve_left unclosed
    obtain ⟨lead, mark, content, rfl, whole⟩ :=
      (whole_or_exists (linked_append.mp lexed).2).resolve_left unclosed
    obtain ⟨inside, -⟩ := (reaches_of_remnant whole mark content).mp parts.reaches
    obtain ⟨count, stop_eq⟩ : ∃ count, stop = (spell (front ++ lead)).length + (count + 1) := by
      refine ⟨stop - (spell (front ++ lead)).length - 1, ?_⟩
      rw [spell_append, List.length_append, parts.begins]
      omega
    have text_eq : text = spell (front ++ lead) ++ mark :: content := by
      rw [← parts.spelled, parts.back_eq_nil unclosed]
      simp [bytes]
    rw [← List.append_assoc] at lexed
    obtain ⟨lead_lexed, ⟨free, quote, apart, open_end⟩, -⟩ := linked_append.mp lexed
    -- The end of the region cuts off bytes that close no literal.
    have still_open : closing? mark (escapes (front ++ lead).getLast? mark) (content.take count) =
        none := by
      rw [Option.or_none] at open_end
      cases cut : closing? mark (escapes (front ++ lead).getLast? mark) (content.take count) with
      | none => rfl
      | some length =>
          have longer := closing?_append cut (content.drop count) fun head_eq => by
            have trails := trailing mark (by
              rw [text_eq, stop_eq, List.drop_length_add_append, List.drop_succ_cons]
              exact List.mem_of_mem_head? head_eq)
            rw [trails_of_isQuote quote] at trails
            cases trails
          rw [List.take_append_drop, open_end] at longer
          cases longer
    have shorter : Lexed none (front ++ lead ++ [remnant mark (content.take count)]) :=
      linked_append.mpr ⟨lead_lexed, ⟨free, quote, apart, by rwa [Option.or_none]⟩, trivial⟩
    have taken : text.take stop = spell (front ++ lead ++ [remnant mark (content.take count)]) := by
      rw [text_eq, stop_eq, List.take_length_add_append, spell_append (front ++ lead)]
      simp [bytes]
    rw [taken, closed_start_spell shorter] at closed
    exact absurd (closed _ (List.mem_append_right _ List.mem_cons_self)) (by simp [isRemnant])
  · intro whole
    rw [(parts.take_stop whole).2.1, closed_start_spell lexed]
    exact List.forall_mem_append.mpr ⟨parts.whole, whole⟩

variable (replacement) in
/-- What the columns of a region are replaced by is spelled by its renamed tokens.  The end of the
text follows once more if a literal of the region is never closed. -/
theorem renameColumn_eq (parts : Parts text place stop front region back) (name : IsName column)
    {statement : Statement} (text_eq : statement.text = text)
    (stop_eq : statement.regionEnd place = stop) :
    Repair.renameColumn statement column replacement place = statement.withText
      (spell (front ++
        (rename column replacement (introduced (spell front).reverse) region ++ back)) ++
        if renamedPlaces column (introduced (spell front).reverse) place region = [] ∨
          Closed (start (text.take stop)) then [] else text.drop stop) := by
  subst text_eq
  obtain ⟨front_lexed, rest_lexed⟩ := linked_append.mp parts.lexed
  rw [Option.or_none] at rest_lexed
  have after := After.nil.of_lexed front_lexed parts.whole
  rw [List.append_nil, Option.or_none] at after
  obtain ⟨taken, dropped⟩ := parts.take_start
  have length_eq : (spell front).reverse.length = place := by
    rw [List.length_reverse, parts.begins]
  have split : statement.text = (spell front).reverse.reverse ++ spell (region ++ back) := by
    rw [List.reverse_reverse, ← spell_append, parts.spelled]
  have writes := @Repair.writes_spell _ _ replacement _ name _ _ _ _ after rest_lexed
    (length_eq.symm ▸ parts.reaches) split
  have site_eq : Site.atOffset statement.text place =
      ⟨(spell front).reverse, spell (region ++ back), (spell front).reverse.length, 0⟩ := by
    rw [Site.atOffset, taken, dropped, length_eq]
  obtain ⟨written_eq, hit_eq⟩ := writes 0
  rw [← site_eq] at written_eq hit_eq
  rw [length_eq] at hit_eq
  rw [Repair.renameColumn, stop_eq]
  rw [Repair.comparingUnits, ← Repair.unitsFrom, hit_eq]
  by_cases nowhere : renamedPlaces column (introduced (spell front).reverse) place region = []
  · rw [if_neg (by simp [nowhere]), rename_of_renamedPlaces replacement nowhere, parts.spelled,
      if_pos (.inl nowhere), List.append_nil]
    rfl
  · rw [if_pos (by simpa using nowhere), Repair.renameCompared, Repair.comparingUnits,
      ← Repair.unitsFrom, written_eq, taken, spell_append, spell_append]
    by_cases closed : Closed (start (statement.text.take stop))
    · rw [if_pos (.inr closed), (parts.take_stop (parts.closed_take.mp closed)).2.2,
        List.append_nil, List.append_assoc]
    · rw [if_neg (not_or.mpr ⟨nowhere, closed⟩),
        parts.back_eq_nil (mt parts.closed_take.mpr closed),
        spell_nil, List.append_nil]

variable (replacement) in
/-- What is copied a second time trails. -/
theorem exists_renameColumn (parts : Parts text place stop front region back) (name : IsName column)
    {statement : Statement} (text_eq : statement.text = text)
    (stop_eq : statement.regionEnd place = stop) :
    ∃ copied, (copied = [] ∨ ¬ Whole region ∧ ∀ byte ∈ copied, trails byte = true) ∧
      copied <:+ text ∧
      Repair.renameColumn statement column replacement place = statement.withText
        (spell (front ++
          (rename column replacement (introduced (spell front).reverse) region ++ back)) ++
          copied) := by
  refine ⟨_, ?_, ?_, parts.renameColumn_eq replacement name text_eq stop_eq⟩
  · split
    · exact .inl rfl
    · rename_i copied
      have unclosed := mt parts.closed_take.mpr (not_or.mp copied).2
      exact .inr ⟨unclosed, parts.ends.resolve_left unclosed⟩
  · split
    · exact List.nil_suffix
    · exact List.drop_suffix _ _

section Renamed

variable {before inside after : List SignAt} (ordinary : IsOrdinary replacement)
  (column_ordinary : IsOrdinary column) (column_upper : upper column = column)

variable (column) in
theorem lexed_rename (parts : Parts text place stop front region back)
    (name : IsName replacement) (follows : Bool) :
    Lexed none (front ++ (rename column replacement follows region ++ back)) := by
  obtain ⟨front_lexed, rest_lexed⟩ := linked_append.mp parts.lexed
  obtain ⟨region_lexed, back_lexed⟩ := linked_append.mp rest_lexed
  refine linked_append.mpr ⟨front_lexed, linked_append.mpr ⟨?_, ?_⟩⟩
  · exact Token.lexed_rename name region_lexed follows
  · rwa [getLast?_rename]

variable (column) in
theorem lexed_front_rename (parts : Parts text place stop front region back)
    (name : IsName replacement) (follows : Bool) :
    Lexed none (front ++ rename column replacement follows region) := by
  obtain ⟨front_lexed, region_lexed⟩ := linked_append.mp parts.lexed_front
  exact linked_append.mpr ⟨front_lexed, Token.lexed_rename name region_lexed follows⟩

variable (column replacement) in
theorem getLast?_spell_rename (parts : Parts text place stop front region back) (follows : Bool) :
    (spell (front ++ rename column replacement follows region)).getLast? =
      (spell (front ++ region)).getLast? := by
  refine getLast?_spell parts.lexed_front ?_
  rw [List.getLast?_append, List.getLast?_append, getLast?_rename]

include ordinary in
/-- A body ends in the same place of its region when columns are replaced in it. -/
theorem reaches_bodyEnd (parts : Parts text place (Statement.bodyEnd text) front region back)
    (follows : Bool) :
    Reaches (Statement.bodyEnd
        (spell (front ++ (rename column replacement follows region ++ back)))) place
      (rename column replacement follows region) := by
  have similar := @similar_rename column replacement follows region
  by_cases closed : Whole region
  · obtain ⟨-, taken, dropped⟩ := parts.take_stop closed
    have same := parts.getLast?_spell_rename column replacement follows
    rw [← taken] at same
    have length_eq := Statement.bodyEnd_append same
    rw [dropped, ← spell_append, List.append_assoc] at length_eq
    rw [reaches_of_whole ((whole_of_similar similar).mpr closed), length_eq, spell_append,
      List.length_append, parts.begins]
  · have lexed := parts.lexed_rename column ordinary.name follows
    rw [parts.back_eq_nil closed, List.append_nil] at lexed ⊢
    rcases whole_or_exists (linked_append.mp lexed).2 with
      whole | ⟨lead, mark, content, split, whole⟩
    · exact absurd ((whole_of_similar similar).mp whole) closed
    · rw [split] at lexed ⊢
      rw [← List.append_assoc] at lexed
      have quote := (linked_append.mp lexed).2.1.2.1
      refine (reaches_of_remnant whole mark content).mpr ⟨?_, ?_⟩
      · by_contra beyond
        have trailing := Statement.trails_of_mem_drop
          (spell (front ++ (lead ++ [remnant mark content])))
          mark ?_
        · rw [trails_of_isQuote quote] at trailing
          cases trailing
        · refine (List.drop_sublist_drop_left _ (Nat.le_of_not_lt beyond)).subset ?_
          rw [← List.append_assoc, spell_append (front ++ lead), ← parts.begins,
            ← List.length_append, ← spell_append, List.drop_left]
          simp [bytes]
      · rw [← parts.begins, ← List.length_append, ← spell_append]
        exact Statement.bodyEnd_le _

variable (column) in
include ordinary in
/-- A text is at a halt behind its region when columns are replaced in it. -/
theorem halt_rename (parts : Parts text place stop front region back)
    (halt : Halt (spell (front ++ region))) (follows : Bool) :
    Halt (spell (front ++ rename column replacement follows region)) := by
  have first := parts.lexed_front
  have second := parts.lexed_front_rename column ordinary.name follows
  have similar := similar_append (similar_refl front)
    (@similar_rename column replacement follows region)
  have last := parts.getLast?_spell_rename column replacement follows
  have level := halt.level
  rw [start, endDepth_spell After.nil first] at level
  refine ⟨?_, ?_, ?_, ?_⟩
  · rw [closed_start_spell second, whole_of_similar similar, ← closed_start_spell first]
    exact halt.closed
  · rw [start, endDepth_spell After.nil second, parens_of_similar similar]
    exact level
  · rw [List.head?_reverse, last, ← List.head?_reverse]
    exact halt.word
  · rw [List.head?_reverse, last, ← List.head?_reverse]
    exact halt.dot

end Renamed

end Parts

/-- A word may stand first wherever it stands. -/
theorem Token.lexed_of_word {previous : Option Token} {written : Text} {tokens others : List Token}
    (lexed : Lexed previous (word written :: tokens ++ others)) :
    Lexed none (word written :: tokens ++ others) :=
  ⟨⟨rfl, lexed.1.2.1, rfl⟩, lexed.2⟩

/-- A text that begins with a sign has it as its first one. -/
theorem signs_start {text : Text} {sign : Sign} (signed : (start text).sign? = some sign) :
    ∃ others, (start text).signs = ⟨sign, 0⟩ :: others := by
  obtain ⟨byte, rest, rfl, identifier, -⟩ := exists_of_sign? signed
  rw [signs, start, code_cons _ _ _ _ (Byte.isQuote_of_isIdentifier byte identifier)]
  refine ⟨_, List.filterMap_cons_some ?_⟩
  rw [signAt?]
  exact congrArg (Option.map _) signed

open Token in
theorem sign?_where {written : Text} {tokens : List Token}
    (lexed : Lexed none (word written :: tokens)) (is_where : upper written = ascii "WHERE") :
    (start (spell (word written :: tokens))).sign? = some (.clause .filter) := by
  refine sign?_eq_some.mpr ⟨⟨rfl, rfl⟩, Sign.ofWords?_eq_clause.mpr ?_⟩
  change upper ((spell (word written :: tokens)).takeWhile Byte.isIdentifier) = _
  rw [takeWhile_spell lexed]
  exact is_where

namespace Region

open Token

variable {text column replacement : Text} {place : Nat} {front tokens back : List Token}
  {before inside after : List SignAt}

theorem lt_end {kind : Clause} (region : Region text kind place before inside after) :
    place < stopBefore text after := by
  cases after with
  | nil =>
      have own : (⟨.clause kind, place⟩ : SignAt) ∈ (start text).signs :=
        region.signs_eq ▸ List.mem_append_right _ List.mem_cons_self
      exact Statement.offset_lt_bodyEnd own
  | cons found after => exact region.offset_lt (by simp)

/-- The region of a `WHERE` begins with the word. -/
theorem exists_where (region : Region text .filter place before inside after)
    (parts : Parts text place (stopBefore text after) front tokens back) :
    ∃ written rest, tokens = word written :: rest ∧ upper written = ascii "WHERE" := by
  have own : (⟨.clause .filter, place⟩ : SignAt) ∈ (start text).signs :=
    region.signs_eq ▸ List.mem_append_right _ List.mem_cons_self
  obtain ⟨-, signed, -⟩ := halt_of_mem_signs own
  have rest_lexed := (linked_append.mp parts.lexed).2
  have spoken_eq : upper (leading (tokens ++ back)) = ascii "WHERE" := by
    rw [← takeWhile_spell rest_lexed, ← parts.take_start.2]
    exact Sign.ofWords?_eq_clause.mp (sign?_eq_some.mp signed).2
  have nonempty : tokens ≠ [] := fun empty => by
    have reached := parts.reaches
    rw [empty] at reached
    exact absurd reached region.lt_end.ne
  obtain ⟨token, rest, rfl⟩ := List.exists_cons_of_ne_nil nonempty
  cases token with
  | word written => exact ⟨written, rest, rfl, spoken_eq⟩
  | _ => exact absurd (show upper [] = ascii "WHERE" from spoken_eq) (by decide)

/-- Only which signs follow one another matters for where a region is among them. -/
theorem congr (region : Region text .filter place before inside after) {text' : Text}
    {inside' after' : List SignAt}
    (signs_eq : (start text').signs = before ++ ⟨.clause .filter, place⟩ :: (inside' ++ after'))
    (inside_eq : inside'.map SignAt.sign = inside.map SignAt.sign)
    (after_eq : after'.map SignAt.sign = after.map SignAt.sign) :
    Region text' .filter place before inside' after' where
  signs_eq := signs_eq
  first := region.first
  old sign member := by
    have listed := inside_eq ▸ List.mem_map_of_mem (f := SignAt.sign) member
    obtain ⟨found, found_mem, same⟩ := List.mem_map.mp listed
    have old := region.old found found_mem
    rwa [Sign.isOld, SignAt.clause?, same] at old
  fresh sign head_eq := by
    have listed : sign.sign ∈ (after.map SignAt.sign).head? := by
      rw [← after_eq, List.head?_map, Option.mem_def.mp head_eq]
      rfl
    rw [List.head?_map] at listed
    obtain ⟨found, found_eq, same⟩ := Option.map_eq_some_iff.mp (Option.mem_def.mp listed)
    have fresh := region.fresh found found_eq
    rwa [Sign.isOld, SignAt.clause?, same] at fresh

section Renamed

variable (ordinary : IsOrdinary replacement) (column_ordinary : IsOrdinary column)
  (column_upper : upper column = column)

include ordinary column_ordinary column_upper

/-- Behind its first `WHERE` a text has the signs that it had. -/
theorem exists_signs_rename (region : Region text .filter place before inside after)
    (parts : Parts text place (stopBefore text after) front tokens back) (follows : Bool) :
    ∃ inside' after', inside'.map SignAt.sign = inside.map SignAt.sign ∧
      after'.map SignAt.sign = after.map SignAt.sign ∧
      (start (spell (front ++ (rename column replacement follows tokens ++ back)))).signs =
        before ++ ⟨.clause .filter, place⟩ :: (inside' ++ after') := by
  have own : (⟨.clause .filter, place⟩ : SignAt) ∈ (start text).signs :=
    region.signs_eq ▸ List.mem_append_right _ List.mem_cons_self
  obtain ⟨halt, -, -⟩ := halt_of_mem_signs own
  have before_eq := (signs_split region.signs_eq).1
  have kinds_eq := kinds_from region.signs_eq
  simp only at halt before_eq kinds_eq
  rw [parts.take_start.1] at halt before_eq
  rw [parts.take_start.2] at kinds_eq
  obtain ⟨written, rest, rfl, is_where⟩ := region.exists_where parts
  have lexed := parts.lexed_rename column ordinary.name follows
  have kept := @rename_where _ replacement column_ordinary column_upper _ is_where follows
    rest
  have same := kinds_rename ordinary column_ordinary column_upper is_where [] follows rest back
  rw [kept] at lexed same ⊢
  have first_lexed := lexed_of_word (linked_append.mp parts.lexed).2
  have second_lexed := lexed_of_word (linked_append.mp lexed).2
  rw [List.nil_append, List.nil_append, ← kinds_spell first_lexed, ← kinds_spell second_lexed,
    kinds_eq] at same
  have signed :
      (start (spell (word written :: rename column replacement (introduces written) rest ++
      back))).sign? = some (.clause .filter) := sign?_where second_lexed is_where
  obtain ⟨others, signs_eq⟩ := signs_start signed
  rw [Site.kinds, signs_eq, List.map_cons, List.map_cons, List.map_append, List.cons.injEq] at same
  obtain ⟨inside', after', rfl, inside_eq, after_eq⟩ := List.map_eq_append_iff.mp same.2
  refine ⟨inside'.map fun found => { found with offset := found.offset + (spell front).length },
    after'.map fun found => { found with offset := found.offset + (spell front).length }, ?_,
    ?_, ?_⟩
  · rw [List.map_map]
    exact inside_eq
  · rw [List.map_map]
    exact after_eq
  · rw [spell_append, halt.signs_eq (.sign signed), before_eq, signs_eq]
    simp [parts.begins]

/-- Up to the end of the region a text has the kinds of signs that it had. -/
theorem kinds_front_rename (region : Region text .filter place before inside after)
    (parts : Parts text place (stopBefore text after) front tokens back) (follows : Bool) :
    (start (spell (front ++ rename column replacement follows tokens))).kinds =
      (start (spell (front ++ tokens))).kinds := by
  rw [kinds_spell parts.lexed_front,
    kinds_spell (parts.lexed_front_rename column ordinary.name follows)]
  obtain ⟨written, rest, rfl, is_where⟩ := region.exists_where parts
  simpa using kinds_rename ordinary column_ordinary column_upper is_where front follows rest []

/-- The region ends where it ended when columns are replaced in it. -/
theorem exists_renamed (region : Region text .filter place before inside after)
    (parts : Parts text place (stopBefore text after) front tokens back) (follows : Bool) :
    let text' := spell (front ++ (rename column replacement follows tokens ++ back))
    ∃ inside' after', Region text' .filter place before inside' after' ∧
      Parts text' place (stopBefore text' after') front (rename column replacement follows tokens)
        back := by
  intro text'
  obtain ⟨inside', after', inside_eq, after_eq, signs_eq⟩ :=
    region.exists_signs_rename ordinary column_ordinary column_upper parts follows
  have renamed_region := region.congr signs_eq inside_eq after_eq
  have lexed := parts.lexed_rename column ordinary.name follows
  have similar := @similar_rename column replacement follows tokens
  cases after with
  | nil =>
      obtain rfl : after' = [] := List.map_eq_nil_iff.mp after_eq
      exact ⟨inside', [], renamed_region, lexed, rfl, parts.whole, parts.begins,
        parts.reaches_bodyEnd ordinary follows, .inr (Statement.trails_of_mem_drop text')⟩
  | cons found after =>
      have split : (start text).signs = (before ++ ⟨.clause .filter, place⟩ :: inside) ++
          found :: after := by
        rw [region.signs_eq]
        simp
      obtain ⟨halt, signed, bounded⟩ :=
        halt_of_mem_signs (split ▸ List.mem_append_right _ List.mem_cons_self)
      have closed := parts.whole_of_sign? signed
      obtain ⟨-, taken, dropped⟩ := parts.take_stop closed
      change text.take found.offset = _ at taken
      change text.drop found.offset = _ at dropped
      have halt' := parts.halt_rename column ordinary (taken ▸ halt) follows
      rw [dropped] at signed
      obtain ⟨others, back_signs⟩ := signs_start signed
      have pieces := halt'.signs_eq (.sign signed)
      rw [← spell_append, List.append_assoc, signs_eq, back_signs] at pieces
      have kinds_eq := region.kinds_front_rename ordinary column_ordinary column_upper parts follows
      rw [← taken, Site.kinds, Site.kinds, (signs_split split).1] at kinds_eq
      have length_eq : (before ++ ⟨.clause .filter, place⟩ :: inside').length =
          (start (spell (front ++ rename column replacement follows tokens))).signs.length := by
        have counted := congrArg List.length kinds_eq
        have same := congrArg List.length inside_eq
        simp only [List.length_map, List.length_append, List.length_cons] at counted same ⊢
        omega
      rw [← List.cons_append, ← List.append_assoc] at pieces
      obtain ⟨-, rfl⟩ := List.append_inj pieces length_eq
      have whole' := (whole_of_similar similar).mpr closed
      refine ⟨inside', _, renamed_region, lexed, rfl, parts.whole, parts.begins, ?_, .inl whole'⟩
      rw [reaches_of_whole whole', ← parts.begins, ← List.length_append, ← spell_append]
      exact (Nat.zero_add _).symm

end Renamed

end Region

end TenantScope
