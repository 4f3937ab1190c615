import TenantScope.Proofs.Conjuncts
import TenantScope.Proofs.Splicing

/-!
# Filling a slot

A predicate compares a column that is no keyword with an identifier between apostrophes.  It is read
as a word, an equals sign and one closed literal, so it brings no mark into the text around it.
-/

namespace TenantScope

namespace Literal

/-- A literal without its mark inside runs through the next one. -/
theorem closing?_of_not_mem {mark : Byte} {content rest : Text} (free : mark ∉ content)
    (single : rest.head? ≠ some mark) :
    closing? mark false (content ++ mark :: rest) = some (content.length + 1) := by
  induction content with
  | nil =>
      cases rest with
      | nil => simp [closing?]
      | cons next rest =>
          have next_ne : next ≠ mark := by simpa using single
          simp [closing?, next_ne]
  | cons byte content ih =>
      rw [List.mem_cons, not_or] at free
      rw [List.cons_append, closing?_cons (Ne.symm free.1) (by simp), ih free.2]
      rfl

end Literal

namespace Scope

open Text Site Literal

/-! ## Predicates -/

/-- A column that can be compared: a name that is no keyword. -/
structure IsColumn (column : Text) : Prop where
  name : IsName column
  unreserved : ∀ mark ∈ Mark.all, column.upper ∉ mark.keywords

/-- An identifier of a tenant that can stand between apostrophes. -/
structure IsTenantId (id : Text) : Prop where
  visible : id.trim ≠ []
  unquoted : ∀ byte ∈ id, byte.isQuote = false

instance (column : Text) : Decidable (IsColumn column) :=
  decidable_of_iff (IsName column ∧ ∀ mark ∈ Mark.all, column.upper ∉ mark.keywords)
    ⟨fun ⟨name, unreserved⟩ => ⟨name, unreserved⟩, fun plain => ⟨plain.name, plain.unreserved⟩⟩

instance (id : Text) : Decidable (IsTenantId id) :=
  decidable_of_iff (id.trim ≠ [] ∧ ∀ byte ∈ id, byte.isQuote = false)
    ⟨fun ⟨visible, unquoted⟩ => ⟨visible, unquoted⟩, fun plain => ⟨plain.visible, plain.unquoted⟩⟩

/-- An identifier between apostrophes. -/
def quoted (id : Text) : Text :=
  Byte.apostrophe :: (id ++ [Byte.apostrophe])

/-- What stands before the literal of a predicate. -/
def comparison (column : Text) : Text :=
  column ++ ascii " = "

theorem predicate_eq (column id : Text) : predicate column id = comparison column ++ quoted id := by
  simp [predicate, comparison, quoted]

/-- A predicate begins with its column. -/
theorem isIdentifier_of_head?_predicate {column id : Text} (plain : IsColumn column) {byte : Byte}
    (head_eq : (predicate column id).head? = some byte) : byte.isIdentifier = true := by
  rw [predicate, List.append_assoc, List.append_assoc, List.append_assoc,
    List.head?_append_of_ne_nil _ plain.name.nonempty] at head_eq
  exact plain.name.identifiers byte (List.mem_of_head? head_eq)

theorem endsInEscapeLetter_blank (back : Text) :
    endsInEscapeLetter (Byte.blank :: back) = false := by
  simp [endsInEscapeLetter, not_escapeLetter_of_not_isIdentifier Byte.blank rfl]

section Quoted

variable {id : Text} (unquoted : ∀ byte ∈ id, byte.isQuote = false) (back : Text)

include unquoted in
/-- An identifier between apostrophes is closed by the second one, unless a third follows. -/
theorem closing?_quoted_append {back rest : Text} (plain : endsInEscapeLetter back = false)
    (single : rest.head? ≠ some Byte.apostrophe) :
    closing? Byte.apostrophe (escapesAfter .standard back Byte.apostrophe)
      ((id ++ [Byte.apostrophe]) ++ rest) = some (id ++ [Byte.apostrophe]).length := by
  have no_escape : escapesAfter .standard back Byte.apostrophe = false := by
    simp [escapesAfter, plain]
  rw [no_escape, List.append_assoc, List.singleton_append,
    closing?_of_not_mem (fun member => ?_) single]
  · simp
  · exact absurd (unquoted _ member) (by decide)

include unquoted in
theorem closing?_quoted :
    closing? Byte.apostrophe (escapesAfter .standard (Byte.blank :: back) Byte.apostrophe)
      ((id ++ [Byte.apostrophe]) ++ []) = some (id ++ [Byte.apostrophe]).length :=
  closing?_quoted_append unquoted (endsInEscapeLetter_blank back) (by simp)

include unquoted in
theorem closed_quoted (offset depth : Nat) :
    Closed ⟨Byte.blank :: back, quoted id, offset, depth⟩ := by
  have read := closed_literal offset depth (Byte.blank :: back) (id ++ [Byte.apostrophe]) []
    (by decide) (closing?_quoted unquoted back)
  rw [List.append_nil] at read
  exact read.mpr (closed_nil _ _ _)

include unquoted in
theorem endDepth_quoted (offset depth : Nat) :
    endDepth ⟨Byte.blank :: back, quoted id, offset, depth⟩ = depth := by
  have read := endDepth_literal offset depth (Byte.blank :: back) (id ++ [Byte.apostrophe]) []
    (by decide) (closing?_quoted unquoted back)
  rw [List.append_nil] at read
  exact read.trans (endDepth_nil _ _ _)

include unquoted in
theorem marks_quoted (offset depth : Nat) :
    marks ⟨Byte.blank :: back, quoted id, offset, depth⟩ = [] := by
  have read := marks_literal (Byte.blank :: back) (id ++ [Byte.apostrophe]) []
    (by decide) (closing?_quoted unquoted back) offset depth
  rw [List.append_nil] at read
  exact read.trans (by simp [marks, code_nil])

end Quoted

/-- A word that is no keyword makes no mark unless it begins a phrase. -/
theorem markAt?_of_unreserved {site : Site}
    (unreserved : ∀ mark ∈ Mark.all, site.spoken ∉ mark.keywords)
    (no_phrase : site.nextSpoken ≠ ascii "BY") : site.markAt? = none := by
  rw [markAt?, Option.map_eq_none_iff]
  cases found : site.mark? with
  | none => rfl
  | some mark =>
      obtain ⟨keyword, member, occurs⟩ :=
        List.any_eq_true.mp (Mark.countsAt_iff.mp (mark?_eq_some.mp found)).2.1
      rcases Mark.keyword_cases member with is_name | rfl | rfl
      · rw [Site.hasWord_of_isName is_name] at occurs
        exact absurd (occurs ▸ member) (unreserved mark (Mark.mem_all mark))
      · exact absurd ((Site.hasWord_phrase Mark.isName_group Mark.isName_by site).mp occurs).2
          no_phrase
      · exact absurd ((Site.hasWord_phrase Mark.isName_order Mark.isName_by site).mp occurs).2
          no_phrase

theorem plain_comparison {column : Text} (name : IsName column) :
    ∀ byte ∈ comparison column, byte.isQuote = false ∧
      (byte ≠ Byte.openParen ∧ byte ≠ Byte.closeParen) := by
  intro byte member
  rcases List.mem_append.mp member with member | member
  · have word := name.identifiers byte member
    exact ⟨Byte.isQuote_of_isIdentifier byte word, Byte.depthless_of_isIdentifier byte word⟩
  · have table : ∀ byte ∈ ascii " = ", byte.isQuote = false ∧
        (byte ≠ Byte.openParen ∧ byte ≠ Byte.closeParen) := by
      decide +kernel
    exact table byte member

theorem marks_comparison {column : Text} (plain : IsColumn column) {back : Text}
    (begins : back.head?.any Byte.isIdentifier = false) (offset depth : Nat) :
    marks ⟨back, comparison column, offset, depth⟩ = [] := by
  have ends : (ascii " = ").head?.any Byte.isIdentifier = false := by decide
  have spoken_eq : Site.spoken ⟨back, column ++ ascii " = ", offset, depth⟩ = column.upper := by
    simp [Site.spoken, afterIdentifier, previous?, begins,
      Site.takeWhile_isIdentifier_append plain.name.identifiers ends]
  have next_eq : Site.nextSpoken ⟨back, column ++ ascii " = ", offset, depth⟩ = [] := by
    simp only [Site.nextSpoken, Site.dropWhile_isIdentifier_append plain.name.identifiers ends]
    decide
  rw [comparison, marks_word _ plain.name, markAt?_of_unreserved (spoken_eq ▸ plain.unreserved)
    (by rw [next_eq]; decide), marks_of_wordless _ _ (by decide +kernel)]
  rfl

theorem reverse_comparison (column back : Text) :
    (comparison column).reverse ++ back =
      Byte.blank :: (Byte.equals :: Byte.blank :: (column.reverse ++ back)) := by
  simp [comparison, ascii, Byte.ofChar]

theorem break_quoted (column id back : Text) :
    Break ((comparison column).reverse ++ back) (quoted id) where
  toSeam := by
    rw [reverse_comparison]
    exact Seam.of_plain_last (by decide) (by decide) _ _
  phrase ends := by
    have blank : Byte.blank.isSpace = true := by decide
    have equals : Byte.equals.isSpace = false := by decide
    rw [reverse_comparison, List.dropWhile_cons_of_pos blank,
      List.dropWhile_cons_of_neg (by simp [equals])] at ends
    simp [show endsPhraseWord Byte.equals = false by decide] at ends

theorem closed_predicate {column id : Text} (name : IsName column) (valid : IsTenantId id)
    (back : Text) (offset depth : Nat) : Closed ⟨back, predicate column id, offset, depth⟩ := by
  have closed : Closed ⟨back, comparison column, offset, depth⟩ :=
    closed_of_plain _ _ fun byte member => (plain_comparison name byte member).1
  rw [predicate_eq, closed_append _ _ closed (break_quoted column id back).toSeam,
    reverse_comparison]
  exact closed_quoted valid.unquoted _ _ _

section Predicate

variable {column id : Text} (plain : IsColumn column) (valid : IsTenantId id) (back : Text)
  (offset depth : Nat)

include plain valid in
theorem endDepth_predicate : endDepth ⟨back, predicate column id, offset, depth⟩ = depth := by
  have closed : Closed ⟨back, comparison column, offset, depth⟩ :=
    closed_of_plain _ _ fun byte member => (plain_comparison plain.name byte member).1
  rw [predicate_eq, endDepth_append _ _ closed (break_quoted column id back).toSeam,
    reverse_comparison, endDepth_quoted valid.unquoted,
    endDepth_of_plain _ _ (fun byte member => (plain_comparison plain.name byte member).1)
      fun byte member => (plain_comparison plain.name byte member).2]

include plain valid in
theorem marks_predicate (begins : back.head?.any Byte.isIdentifier = false) :
    marks ⟨back, predicate column id, offset, depth⟩ = [] := by
  have closed : Closed ⟨back, comparison column, offset, depth⟩ :=
    closed_of_plain _ _ fun byte member => (plain_comparison plain.name byte member).1
  rw [predicate_eq, marks_append _ _ closed (break_quoted column id back),
    marks_comparison plain begins, reverse_comparison, marks_quoted valid.unquoted]
  rfl

end Predicate

theorem getLast?_append_predicate (front column id : Text) :
    (front ++ predicate column id).getLast? = some Byte.apostrophe := by
  rw [predicate, ← List.append_assoc, List.getLast?_concat]

/-- Anything but another apostrophe may follow a predicate. -/
theorem break_after_predicate (column id back : Text) {after : Text}
    (single : after.head? ≠ some Byte.apostrophe) :
    Break ((predicate column id).reverse ++ back) after where
  word follows := by
    simp [predicate, show Byte.isIdentifier Byte.apostrophe = false by decide] at follows
  mark _ same := by
    simp [predicate] at same
    exact single same.symm
  escape apostrophe := absurd apostrophe single
  phrase ends := by
    simp [predicate, show Byte.isSpace Byte.apostrophe = false by decide,
      show endsPhraseWord Byte.apostrophe = false by decide] at ends

/-! ## Ends of bodies -/

/-- After its body a text has white space, and a semicolon before that unless the body ends in some
other visible byte. -/
theorem exists_bodyEnd (text : Text) :
    ∃ body after, text = body ++ after ∧ body.length = Statement.bodyEnd text ∧
      ((∃ blank, (∀ byte ∈ blank, byte.isSpace = true) ∧ after = Byte.semicolon :: blank) ∨
        (∀ byte ∈ after, byte.isSpace = true) ∧ ∀ last, body.getLast? = some last →
          last.isSpace = false ∧ last ≠ Byte.semicolon) := by
  have split := List.takeWhile_append_dropWhile (p := Byte.isSpace) (l := text.reverse)
  have blank : ∀ byte ∈ (text.reverse.takeWhile Byte.isSpace).reverse, byte.isSpace = true :=
    fun byte member => isSpace_of_mem_takeWhile (List.mem_reverse.mp member)
  have whole : text = (text.reverse.dropWhile Byte.isSpace).reverse ++
      (text.reverse.takeWhile Byte.isSpace).reverse := by
    rw [← List.reverse_append, split, List.reverse_reverse]
  unfold Statement.bodyEnd
  cases rest_eq : text.reverse.dropWhile Byte.isSpace with
  | nil =>
      rw [rest_eq] at whole
      exact ⟨[], _, whole, rfl, .inr ⟨blank, by simp⟩⟩
  | cons last body =>
      have visible : last.isSpace = false := by
        simpa [rest_eq] using List.head?_dropWhile_not Byte.isSpace text.reverse
      rw [rest_eq, List.reverse_cons] at whole
      dsimp only
      split
      · rename_i semicolon
        obtain rfl : last = Byte.semicolon := by simpa using semicolon
        exact ⟨body.reverse, _, whole.trans (by simp), by simp, .inl ⟨_, blank, rfl⟩⟩
      · rename_i other
        refine ⟨body.reverse ++ [last], _, whole, by simp, .inr ⟨blank, fun byte byte_eq => ?_⟩⟩
        obtain rfl : last = byte := by simpa using byte_eq
        exact ⟨visible, by simpa using other⟩

theorem bodyEnd_of_semicolon {body blank : Text} (is_blank : ∀ byte ∈ blank, byte.isSpace = true) :
    Statement.bodyEnd (body ++ Byte.semicolon :: blank) = body.length := by
  have visible : Byte.semicolon.isSpace = false := by decide
  rw [Statement.bodyEnd, List.reverse_append, List.reverse_cons, List.append_assoc,
    List.dropWhile_append_of_pos (by simpa using is_blank)]
  simp [visible]

theorem bodyEnd_of_blank {body blank : Text} {last : Byte}
    (is_blank : ∀ byte ∈ blank, byte.isSpace = true) (last_eq : body.getLast? = some last)
    (visible : last.isSpace = false) (no_semicolon : last ≠ Byte.semicolon) :
    Statement.bodyEnd (body ++ blank) = body.length := by
  obtain ⟨body, rfl⟩ := List.getLast?_eq_some_iff.mp last_eq
  rw [Statement.bodyEnd, List.reverse_append,
    List.dropWhile_append_of_pos (by simpa using is_blank)]
  simp [visible, no_semicolon]

/-! ## Marks and the places where they stand -/

/-- A mark stands at the place of its offset, where the reading may be taken up. -/
theorem atOffset_of_mem_marks {text : Text} {mark : MarkAt} (member : mark ∈ Outline.marks text) :
    Site.atOffset text mark.offset ∈ (Site.start text).code ∧
      mark.mark.countsAt (Site.atOffset text mark.offset) = true := by
  obtain ⟨site, site_mem, marked, offset_eq⟩ := mem_marks.mp member
  have counts := mark?_eq_some.mp marked
  have depth_eq := (Mark.countsAt_iff.mp counts).1
  obtain ⟨back_eq, rest_eq⟩ := of_mem_tour_start (List.mem_filter.mp site_mem).1
  have site_eq : site = Site.atOffset text mark.offset := by
    obtain ⟨back, rest, offset, depth⟩ := site
    simp only at back_eq rest_eq offset_eq depth_eq
    subst offset_eq
    rw [Site.atOffset, ← back_eq, ← rest_eq, depth_eq]
  exact ⟨site_eq ▸ site_mem, site_eq ▸ counts⟩

theorem resumes_of_mem_marks {text : Text} {mark : MarkAt} (member : mark ∈ Outline.marks text) :
    Site.Resumes text mark.offset := by
  obtain ⟨here, counts⟩ := atOffset_of_mem_marks member
  exact resumes_of_mem_code here rfl (List.nil_append _).symm (List.forall_mem_nil _)

theorem spoken_filter_of_mem_marks {text : Text} {offset : Nat}
    (member : ⟨.clause .filter, offset⟩ ∈ Outline.marks text) :
    (Site.atOffset text offset).spoken = Clause.filter.keyword := by
  have is_name : IsName Clause.filter.keyword := by decide +kernel
  have occurs := (Mark.countsAt_iff.mp (atOffset_of_mem_marks member).2).2.1
  simpa [Mark.occursAt, Mark.keywords, Site.hasWord_of_isName is_name] using occurs

theorem word?_filter_of_mem_marks {text : Text} {offset : Nat}
    (member : ⟨.clause .filter, offset⟩ ∈ Outline.marks text) :
    (Site.atOffset text offset).word? Clause.filter.keyword = some 5 := by
  rw [Site.word?_of_isName (by decide +kernel), if_pos (spoken_filter_of_mem_marks member)]
  rfl

/-- At a `WHERE` of the outline the word begins and is read. -/
theorem filter_of_mem_marks {text : Text} {offset : Nat}
    (member : ⟨.clause .filter, offset⟩ ∈ Outline.marks text) :
    (Site.atOffset text offset).afterIdentifier = false ∧
      upper ((Site.atOffset text offset).rest.takeWhile Byte.isIdentifier) = ascii "WHERE" := by
  have spoken_eq := spoken_filter_of_mem_marks member
  have begins : (Site.atOffset text offset).afterIdentifier = false :=
    (exists_of_spoken_ne (spoken_eq ▸ List.cons_ne_nil _ _)).1
  rw [Site.spoken, begins, if_neg (by simp)] at spoken_eq
  exact ⟨begins, spoken_eq⟩

/-- After a `WHERE` of the outline the reading may be taken up. -/
theorem conditionStart_of_mem_marks {text : Text} {offset : Nat}
    (member : ⟨.clause .filter, offset⟩ ∈ Outline.marks text) :
    conditionStart text offset = offset + 5 ∧ Site.Resumes text (offset + 5) ∧
      offset + 5 ≤ text.length := by
  have here : Site.atOffset text offset ∈ (start text).code := (atOffset_of_mem_marks member).1
  have length_eq : Clause.filter.keyword.length = 5 := by decide
  have spoken_eq := spoken_filter_of_mem_marks member
  have fits := Site.length_spoken_le (Site.atOffset text offset)
  rw [spoken_eq, length_eq] at fits
  have total := Site.offset_add_length here
  refine ⟨?_, ?_, ?_⟩
  · rw [conditionStart, word?_filter_of_mem_marks member]
    rfl
  · have resumes := resumes_of_mem_code here rfl
      (List.take_append_drop 5 (Site.atOffset text offset).rest).symm fun byte byte_mem =>
        Site.isIdentifier_of_mem_take (by rwa [spoken_eq, length_eq])
    rwa [List.length_take, Nat.min_eq_left fits] at resumes
  · have offset_eq : (Site.atOffset text offset).offset = offset := rfl
    omega

/-- Behind a condition a slot goes on where the condition ends. -/
theorem conditionSlot_after (text : Text) (start stop : Nat) (hasOr : Bool) :
    (conditionSlot text start stop hasOr).after =
      text.drop (start + (trimRight (Statement.slice text start stop)).length) := by
  rw [conditionSlot]
  split
  · rfl
  · split <;> rfl

/-- The slot of a predicate is that of a new condition, or of the one that a `WHERE` begins. -/
theorem slot_cases {text column : Text} {source : Source} {slot : Slot}
    (chosen : slot? text column (Outline.ofText text) source = .ok (some slot)) :
    ((Outline.ofText text).find? .filter = none ∧
      slot = newConditionSlot text (insertionPoint text (Outline.ofText text) source)) ∨
    ∃ filter, (Outline.ofText text).find? .filter = some filter ∧
      filter < insertionPoint text (Outline.ofText text) source ∧
      slot = conditionSlot text (filter + 5) (insertionPoint text (Outline.ofText text) source)
        (hasAlternatives text (filter + 5) (insertionPoint text (Outline.ofText text) source)) := by
  rcases slot?_cases chosen with ⟨no_filter, slot_eq⟩ |
    ⟨filter, filter_eq, inside, ⟨-, -, impossible⟩ | ⟨-, slot_eq⟩⟩
  · exact .inl ⟨no_filter, Option.some.inj slot_eq⟩
  · cases impossible
  · rw [(conditionStart_of_mem_marks (mem_marks_of_find? filter_eq)).1] at slot_eq
    exact .inr ⟨filter, filter_eq, inside, Option.some.inj slot_eq⟩

/-! ## The text after the condition -/

/-- After the condition comes something that ends it, outside parentheses, or the end of the
body. -/
inductive EndsWith (before : Text) : Text → Prop
  | tail {after : Text} {mark : Mark} {others : List MarkAt} :
      Outline.marks after = ⟨mark, 0⟩ :: others → mark.isTail = true →
      endDepth (start before) = 0 → EndsWith before after
  | semicolon {blank : Text} : (∀ byte ∈ blank, byte.isSpace = true) →
      EndsWith before (Byte.semicolon :: blank)
  | blank {after : Text} : (∀ byte ∈ after, byte.isSpace = true) →
      (∀ last, before.getLast? = some last → last.isSpace = false ∧ last ≠ Byte.semicolon) →
      EndsWith before after

/-- A text divided where its condition ends. -/
structure Parting (text before after : Text) (source : Nat) : Prop where
  split : text = before ++ after
  closed : Closed (start before)
  broken : Break before.reverse after
  marks_eq : Outline.marks text =
    Outline.marks before ++ (Outline.marks after).map (MarkAt.shift before.length)
  no_tail : ∀ mark ∈ Outline.marks before, mark.mark.isTail = true → mark.offset < source
  ending : EndsWith before after

theorem marks_of_semicolon {blank : Text} (is_blank : ∀ byte ∈ blank, byte.isSpace = true)
    (back : Text) (offset depth : Nat) :
    marks ⟨back, Byte.semicolon :: blank, offset, depth⟩ = [] := by
  rw [marks_plain _ _ (by decide) (by decide), marks_of_blank is_blank]

/-- No keyword that ends a condition begins like the second word of a phrase. -/
theorem not_beginsPhraseWord_of_isTail {mark : Mark} {site : Site} (is_tail : mark.isTail = true)
    (occurs : mark.occursAt site = true) {byte : Byte} {rest : Text}
    (rest_eq : site.rest = byte :: rest) : beginsPhraseWord byte = false := by
  have table : ∀ mark ∈ Mark.all, mark.isTail = true → ∀ keyword ∈ mark.keywords,
      (keyword.takeWhile Byte.isIdentifier).head? ≠ some (Byte.ofChar 'B') := by
    decide +kernel
  obtain ⟨keyword, member, keyword_occurs⟩ := List.any_eq_true.mp occurs
  have not_b := table mark (Mark.mem_all mark) is_tail keyword member
  obtain ⟨begins, first, others, cons_eq, word⟩ :=
    exists_of_spoken_ne (Mark.spoken_ne_of_occursAt occurs)
  obtain ⟨rfl, rfl⟩ : first = byte ∧ others = rest := by simpa [cons_eq] using rest_eq
  rw [← Mark.spoken_of_hasWord member keyword_occurs, Site.spoken, begins, cons_eq] at not_b
  simpa [beginsPhraseWord, word, upper] using not_b

/-- Nothing runs on into a keyword that ends a condition. -/
theorem break_of_isTail {mark : Mark} {site : Site} (is_tail : mark.isTail = true)
    (occurs : mark.occursAt site = true) : Break site.back site.rest := by
  obtain ⟨begins, byte, rest, rest_eq, word⟩ :=
    exists_of_spoken_ne (Mark.spoken_ne_of_occursAt occurs)
  have not_space := Byte.isSpace_of_isIdentifier byte word
  have no_phrase := not_beginsPhraseWord_of_isTail is_tail occurs rest_eq
  refine ⟨Seam.of_word begins fun first head_eq => ?_, fun _ => ?_⟩
  · obtain rfl : byte = first := by simpa [rest_eq] using head_eq
    exact word
  · simpa [rest_eq, not_space] using no_phrase

theorem occursAt_start {mark : Mark} {back rest : Text} {offset depth : Nat}
    (begins : Site.afterIdentifier ⟨back, rest, offset, depth⟩ = false) :
    mark.occursAt ⟨back, rest, offset, depth⟩ = mark.occursAt (start rest) := by
  have preceded : mark.occursAt (Site.precede back offset ⟨[], rest, 0, depth⟩) =
      mark.occursAt ⟨[], rest, 0, depth⟩ :=
    Mark.occursAt_precede mark offset fun _ _ => begins
  simp only [precede, List.nil_append, Nat.zero_add] at preceded
  exact preceded.trans rfl

/-- A mark that counts is the first one of the text from it on. -/
theorem marks_of_countsAt {mark : Mark} {back rest : Text} {offset depth : Nat}
    (counts : mark.countsAt ⟨back, rest, offset, depth⟩ = true) :
    ∃ others, Outline.marks rest = ⟨mark, 0⟩ :: others := by
  have occurs := (Mark.countsAt_iff.mp counts).2.1
  obtain ⟨begins, byte, others, rest_eq, word⟩ :=
    exists_of_spoken_ne (Mark.spoken_ne_of_occursAt occurs)
  rw [occursAt_start begins] at occurs
  have counts_start : mark.countsAt (start rest) = true :=
    Mark.countsAt_iff.mpr ⟨rfl, occurs, fun _ => rfl⟩
  have marked : markAt? (start rest) = some ⟨mark, 0⟩ := by
    rw [markAt?, mark?_eq_some.mpr counts_start]
    rfl
  obtain rfl : rest = byte :: others := rest_eq
  rw [start] at marked
  rw [Outline.marks, start, marks_cons _ _ (Byte.isQuote_of_isIdentifier byte word), marked]
  exact ⟨_, rfl⟩

/-- A full stop just before a mark that counts is not before a keyword of the outline. -/
theorem undotted_of_countsAt {mark : Mark} {back rest : Text} {offset depth : Nat}
    (counts : mark.countsAt ⟨back, rest, offset, depth⟩ = true) : Undotted back rest := by
  obtain ⟨-, occurs, harmless⟩ := Mark.countsAt_iff.mp counts
  have begins := (exists_of_spoken_ne (Mark.spoken_ne_of_occursAt occurs)).1
  rw [occursAt_start begins] at occurs
  intro dotted other in_outline
  refine Bool.eq_false_iff.mpr fun other_occurs => ?_
  have after_dot := harmless (Mark.eq_of_occursAt occurs other_occurs ▸ in_outline)
  simp [Site.afterDot, Site.previous?, dotted] at after_dot

/-- A text is divided before a mark that ends its condition. -/
theorem parting_of_mark {text : Text} {source : Nat} {mark : MarkAt}
    (first : (Outline.marks text).find? (fun mark =>
      decide (source ≤ mark.offset) && mark.mark.isTail) = some mark) :
    ∃ before after, before.length = mark.offset ∧ Parting text before after source := by
  have member := List.mem_of_find?_eq_some first
  have wanted := List.find?_some first
  simp only [Bool.and_eq_true, decide_eq_true_eq] at wanted
  obtain ⟨here, counts⟩ := atOffset_of_mem_marks member
  obtain ⟨before, split, closed, site_eq⟩ := exists_closed_of_mem_code here
  have length_eq : mark.offset = before.length := by
    simpa [Site.atOffset] using congrArg Site.offset site_eq
  have level : endDepth (start before) = 0 := (congrArg Site.depth site_eq).symm
  rw [site_eq] at counts
  have broken := break_of_isTail wanted.2 (Mark.countsAt_iff.mp counts).2.1
  have undotted := undotted_of_countsAt counts
  obtain ⟨others, after_marks⟩ := marks_of_countsAt counts
  simp only [List.append_nil] at broken undotted
  generalize (Site.atOffset text mark.offset).rest = after at *
  have marks_eq : Outline.marks text =
      Outline.marks before ++ (Outline.marks after).map (MarkAt.shift before.length) := by
    rw [split, Outline.marks, Site.start, marks_append 0 0 closed (by simpa using broken),
      List.append_nil, marks_of_seam broken.toSeam undotted, Nat.zero_add]
    have level' : endDepth ⟨[], before, 0, 0⟩ = 0 := level
    rw [level']
    rfl
  refine ⟨before, after, length_eq.symm, split, closed, broken, marks_eq,
    fun other other_mem is_tail => ?_, .tail after_marks wanted.2 level⟩
  by_contra later
  have other_before := lt_length_of_mem_marks other_mem
  have first_le := offset_le_of_find? (pairwise_marks text) first
    (marks_eq ▸ List.mem_append_left _ other_mem) (by simp [is_tail]; omega)
  omega

theorem EndsWith.single {before after : Text} (ends : EndsWith before after) :
    after.head? ≠ some Byte.apostrophe := by
  cases ends with
  | tail marks_eq =>
      have counts := (atOffset_of_mem_marks (marks_eq ▸ List.mem_cons_self)).2
      obtain ⟨-, byte, rest, rest_eq, word⟩ := exists_of_spoken_ne
        (Mark.spoken_ne_of_occursAt (Mark.countsAt_iff.mp counts).2.1)
      obtain rfl : after = byte :: rest := rest_eq
      intro apostrophe
      obtain rfl : byte = Byte.apostrophe := by simpa using apostrophe
      exact absurd word (by decide)
  | semicolon => simp [show Byte.semicolon ≠ Byte.apostrophe by decide]
  | blank is_blank =>
      intro apostrophe
      exact absurd (is_blank _ (List.mem_of_head? apostrophe)) (by decide)

/-- A text whose literals are closed is divided at the end of its body when no mark ends its
condition. -/
theorem parting_of_bodyEnd {text : Text} {source : Nat} (closed : Closed (start text))
    (none_there : (Outline.marks text).find? (fun mark =>
      decide (source ≤ mark.offset) && mark.mark.isTail) = none) :
    ∃ before after, before.length = Statement.bodyEnd text ∧ Outline.marks after = [] ∧
      Parting text before after source := by
  obtain ⟨before, after, split, length_eq, shape⟩ := exists_bodyEnd text
  have ends : EndsWith before after := by
    rcases shape with ⟨blank, is_blank, rfl⟩ | ⟨is_blank, visible⟩
    · exact .semicolon is_blank
    · exact .blank is_blank visible
  have plain : ∀ byte ∈ after, byte.isQuote = false := by
    rcases shape with ⟨blank, is_blank, rfl⟩ | ⟨is_blank, -⟩
    · rw [List.forall_mem_cons]
      exact ⟨by decide, fun byte member => Byte.isQuote_of_isSpace byte (is_blank byte member)⟩
    · exact fun byte member => Byte.isQuote_of_isSpace byte (is_blank byte member)
  have broken : Break before.reverse after := by
    rcases shape with ⟨blank, is_blank, rfl⟩ | ⟨is_blank, -⟩
    · refine ⟨Seam.of_plain_head (by decide) (by decide) _ _, fun _ => ?_⟩
      simp [show Byte.semicolon.isSpace = false by decide,
        show beginsPhraseWord Byte.semicolon = false by decide]
    · refine ⟨Seam.of_blank_right is_blank _, fun _ => ?_⟩
      simp [List.dropWhile_eq_nil_iff.mpr is_blank]
  have no_marks (back : Text) (offset depth : Nat) :
      Site.marks ⟨back, after, offset, depth⟩ = [] := by
    rcases shape with ⟨blank, is_blank, rfl⟩ | ⟨is_blank, -⟩
    · exact marks_of_semicolon is_blank _ _ _
    · exact marks_of_blank is_blank _ _ _
  have before_closed : Closed (start before) :=
    closed_of_append_plain plain (by rwa [← split])
  have marks_eq : Outline.marks text =
      Outline.marks before ++ (Outline.marks after).map (MarkAt.shift before.length) := by
    rw [Outline.marks, split, Site.start,
      marks_append 0 0 before_closed (by simpa using broken), no_marks, Outline.marks,
      Outline.marks, start, start, no_marks]
    rfl
  refine ⟨before, after, length_eq, no_marks _ _ _, split, before_closed, broken, marks_eq,
    fun mark member is_tail => ?_, ends⟩
  have fails := List.find?_eq_none.mp none_there mark (marks_eq ▸ List.mem_append_left _ member)
  by_contra later
  exact fails (by simp [is_tail]; omega)

theorem EndsWith.visible {before after : Text} (ends : EndsWith before after)
    (blank : ∀ byte ∈ after, byte.isSpace = true) :
    ∀ last, before.getLast? = some last → last.isSpace = false ∧ last ≠ Byte.semicolon := by
  cases ends with
  | tail marks_eq => simp [Outline.marks, start, marks_of_blank blank] at marks_eq
  | semicolon => exact absurd (blank Byte.semicolon (by simp)) (by decide)
  | blank _ visible => exact visible

theorem bodyEnd_of_ends {before after : Text} (ends : EndsWith before after)
    (blank : ∀ byte ∈ after, byte.isSpace = true) :
    Statement.bodyEnd (before ++ after) = before.length := by
  have visible := ends.visible blank
  cases last_eq : before.getLast? with
  | none =>
      obtain rfl : before = [] := List.getLast?_eq_none_iff.mp last_eq
      have reverse_blank : ∀ byte ∈ after.reverse, byte.isSpace = true := by simpa using blank
      simp [Statement.bodyEnd, List.dropWhile_eq_nil_iff.mpr reverse_blank]
  | some last =>
      obtain ⟨not_space, no_semicolon⟩ := visible last last_eq
      exact bodyEnd_of_blank blank last_eq not_space no_semicolon

end Scope

end TenantScope
