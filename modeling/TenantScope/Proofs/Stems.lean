import TenantScope.Proofs.Scoping

/-!
# Beginnings of statements

Up to the end of its condition a statement begins with its one outermost query.  That beginning
stays one when a new `WHERE`, an `AND` or a pair of parentheses is added to it, and its marks are
those that it had and those of what is added.
-/

namespace TenantScope

namespace Scope

open Text Site Literal

/-! ## The text before the end of a condition -/

theorem sourceOf_eq_ok {tenant : Tenant} {outline : Outline} {source : Source}
    (found : sourceOf tenant outline = .ok source) :
    tenant.id.trim ≠ [] ∧ outline.source? = some source ∧ outline.compound = false ∧
      (∀ found ∈ outline.clauses, source.offset ≤ found.offset) ∧ Canonical outline.clauses := by
  unfold sourceOf at found
  split at found
  · simp at found
  · rename_i visible
    split at found
    · simp at found
    · rename_i known source_eq
      split at found
      · simp at found
      · rename_i single
        split at found
        · simp at found
        · rename_i none_before
          split at found
          · rename_i canonical
            obtain rfl : known = source := by simpa using found
            refine ⟨by simpa using visible, source_eq, by simpa using single,
              fun clause member => ?_, canonical⟩
            simpa using List.find?_eq_none.mp none_before clause member
          · simp at found

section Parted

variable {text before after : Text} {source : Source}

/-- Only what ends a condition stands right after it. -/
theorem Parting.mem_before {offset : Nat} (parting : Parting text before after offset)
    {mark : MarkAt} (member : mark ∈ Outline.marks text) (not_tail : mark.mark.isTail = false)
    (within : mark.offset ≤ before.length) : mark ∈ Outline.marks before := by
  rw [parting.marks_eq, List.mem_append] at member
  refine member.resolve_right fun later => ?_
  obtain ⟨shifted, shifted_mem, rfl⟩ := List.mem_map.mp later
  have ending := parting.ending
  cases ending with
  | @tail _ tail others after_marks is_tail =>
      have ordered := pairwise_marks after
      rw [after_marks, List.pairwise_cons] at ordered
      rw [after_marks, List.mem_cons] at shifted_mem
      rcases shifted_mem with rfl | shifted_mem
      · simp [MarkAt.shift, is_tail] at not_tail
      · have positive := ordered.1 shifted shifted_mem
        simp only [MarkAt.shift] at within positive
        omega
  | semicolon is_blank => simp [Outline.marks, start, marks_of_semicolon is_blank] at shifted_mem
  | blank is_blank => simp [Outline.marks, start, marks_of_blank is_blank] at shifted_mem

/-- A text whose literals are closed is divided where its condition ends, after its source. -/
theorem exists_parting (closed : Closed (start text))
    (source_eq : (Outline.ofText text).source? = some source)
    (ordered : ∀ found ∈ (Outline.ofText text).clauses, source.offset ≤ found.offset) :
    ∃ before after, before.length = insertionPoint text (Outline.ofText text) source ∧
      source.offset ≤ before.length ∧ Parting text before after source.offset := by
  have source_mem := mem_marks_of_source? source_eq
  rw [insertionPoint_eq (resumes_of_mem_marks source_mem) ordered, firstTail?]
  cases first : (Outline.marks text).find? fun mark =>
      decide (source.offset ≤ mark.offset) && mark.mark.isTail with
  | some mark =>
      obtain ⟨before, after, length_eq, parting⟩ := parting_of_mark first
      have wanted := List.find?_some first
      simp only [Bool.and_eq_true, decide_eq_true_eq] at wanted
      exact ⟨before, after, length_eq, by omega, parting⟩
  | none =>
      obtain ⟨before, after, length_eq, no_marks, parting⟩ := parting_of_bodyEnd closed first
      refine ⟨before, after, length_eq, ?_, parting⟩
      rw [parting.marks_eq, no_marks, List.map_nil, List.append_nil] at source_mem
      exact Nat.le_of_lt (lt_length_of_mem_marks source_mem)

/-- The first mark of a kind that ends no condition is not looked for beyond it. -/
theorem Parting.find_before {offset place : Nat} {mark : Mark}
    (parting : Parting text before after offset) (not_tail : mark.isTail = false)
    (found :
      ((Outline.marks text).find? fun found => found.mark == mark).map (·.offset) = some place)
    (within : place ≤ before.length) :
    ((Outline.marks before).find? fun found => found.mark == mark).map (·.offset) = some place := by
  obtain ⟨first, first_found, rfl⟩ := Option.map_eq_some_iff.mp found
  have kind : first.mark = mark := by simpa using List.find?_some first_found
  have member := parting.mem_before (List.mem_of_find?_eq_some first_found) (kind ▸ not_tail) within
  rw [parting.marks_eq, List.find?_append] at first_found
  cases before_found : (Outline.marks before).find? fun found => found.mark == mark with
  | none => simpa [kind] using List.find?_eq_none.mp before_found _ member
  | some other => simpa [before_found] using congrArg (Option.map MarkAt.offset) first_found

/-- Up to the end of its condition a text begins with its one outermost query. -/
theorem opening_of_parting (parting : Parting text before after source.offset)
    (source_eq : (Outline.ofText text).source? = some source)
    (single : (Outline.ofText text).compound = false)
    (ordered : ∀ found ∈ (Outline.ofText text).clauses, source.offset ≤ found.offset)
    (inside : source.offset ≤ before.length) : Opening before source.offset := by
  have inherited {mark : MarkAt} (member : mark ∈ Outline.marks before) :
      mark ∈ Outline.marks text :=
    parting.marks_eq ▸ List.mem_append_left _ member
  have located := Outline.source?_ofText text
  rw [source_eq, Option.map_some] at located
  refine ⟨parting.closed, parting.find_before rfl located.symm inside,
    fun mark member combination => ?_, fun mark member clause mark_eq => ?_, parting.no_tail⟩
  · rw [Outline.compound_ofText, List.any_eq_false] at single
    simpa [combination] using single mark (inherited member)
  · obtain ⟨found, listed, -, found_le⟩ := exists_listed (inherited member) mark_eq
    exact Nat.le_trans (ordered found listed) found_le

end Parted

/-! ## The parts of a condition -/

/-- Nothing runs on over the end of a `WHERE` and the white space after it. -/
theorem break_after_filter {front written blanks rest : Text}
    (name_eq : upper written = ascii "WHERE") (blank : ∀ byte ∈ blanks, byte.isSpace = true)
    (begins : (blanks ++ rest).head?.any Byte.isIdentifier = false) :
    Break (front ++ written ++ blanks).reverse rest := by
  have identifiers := isIdentifier_of_upper_eq
    (show IsName (ascii "WHERE") by decide +kernel).identifiers name_eq
  have length_eq : written.length = 5 := by
    rw [← length_upper, name_eq]
    rfl
  obtain ⟨first, second, third, fourth, last, rfl⟩ : ∃ first second third fourth last,
      written = [first, second, third, fourth, last] := by
    match written, length_eq with
    | [first, second, third, fourth, last], _ => exact ⟨first, second, third, fourth, last, rfl⟩
  have word : last.isIdentifier = true := identifiers last (by simp)
  have fourth_word : fourth.isIdentifier = true := identifiers fourth (by simp)
  have last_eq : some last.toUpper = some (Byte.ofChar 'E') := congrArg List.getLast? name_eq
  have visible := Byte.isSpace_of_isIdentifier last word
  have no_phrase : endsPhraseWord last = false := by
    rw [endsPhraseWord, Option.some.inj last_eq]
    decide
  have reverse_eq : (front ++ [first, second, third, fourth, last] ++ blanks).reverse =
      blanks.reverse ++ last :: fourth :: (front ++ [first, second, third]).reverse := by simp
  have reverse_blank : ∀ byte ∈ blanks.reverse, byte.isSpace = true := by simpa using blank
  rw [reverse_eq]
  refine ⟨?_, fun ends => ?_⟩
  · cases blanks_eq : blanks.reverse with
    | cons space others =>
        have space_eq := reverse_blank space (by simp [blanks_eq])
        exact Seam.of_plain_last (Byte.isIdentifier_of_isSpace space space_eq)
          (Byte.isQuote_of_isSpace space space_eq) _ rest
    | nil =>
        obtain rfl : blanks = [] := List.reverse_eq_nil_iff.mp blanks_eq
        refine ⟨fun _ => begins, fun quote same => ?_, fun _ => ?_⟩
        · rw [← same] at quote
          simp [Byte.isQuote_of_isIdentifier last word] at quote
        · simp [endsInEscapeLetter, fourth_word]
  · rw [List.dropWhile_append_of_pos reverse_blank] at ends
    simp [visible, no_phrase] at ends

/-- The parts of a text that ends with the condition after the `WHERE` at an offset: the text
through the `WHERE`, and the condition with white space around it. -/
structure Layout (before : Text) (filter : Nat) (head lead condition trail : Text) : Prop where
  split : before = head ++ (lead ++ (condition ++ trail))
  filter_word : ∃ front written,
    head = front ++ written ∧ front.length = filter ∧ upper written = ascii "WHERE"
  closed : Closed (start head)
  level : endDepth (start head) = 0
  begins : (lead ++ condition).head?.any Byte.isIdentifier = false
  lead_blank : ∀ byte ∈ lead, byte.isSpace = true
  trail_blank : ∀ byte ∈ trail, byte.isSpace = true
  first_visible : ∀ byte, condition.head? = some byte → byte.isSpace = false
  last_visible : ∀ byte, condition.getLast? = some byte → byte.isSpace = false

/-- A text with a `WHERE` is laid out up to any place after it. -/
theorem exists_layout {text before after : Text} {filter : Nat}
    (member : ⟨.clause .filter, filter⟩ ∈ Outline.marks text) (split : text = before ++ after)
    (fits : filter + 5 ≤ before.length) :
    ∃ head lead condition trail, Layout before filter head lead condition trail := by
  have here := (atOffset_of_mem_marks member).1
  obtain ⟨plain, name_eq⟩ := filter_of_mem_marks member
  obtain ⟨front, front_split, closed, site_eq⟩ := exists_closed_of_mem_code here
  have length_eq : filter = front.length := by
    simpa [Site.atOffset] using congrArg Site.offset site_eq
  have level : endDepth (start front) = 0 := (congrArg Site.depth site_eq).symm
  dsimp only at here site_eq
  generalize (Site.atOffset text filter).rest = rest at *
  have identifiers := isIdentifier_of_upper_eq
    (show IsName (ascii "WHERE") by decide +kernel).identifiers name_eq
  have begins := head?_dropWhile_isIdentifier rest
  have rest_split := List.takeWhile_append_dropWhile (p := Byte.isIdentifier) (l := rest)
  generalize rest.takeWhile Byte.isIdentifier = written at *
  have written_length : written.length = 5 := by
    rw [← length_upper, name_eq]
    rfl
  have quoteless : ∀ byte ∈ written, byte.isQuote = false :=
    fun byte byte_mem => Byte.isQuote_of_isIdentifier byte (identifiers byte byte_mem)
  have unnested : ∀ byte ∈ written, byte ≠ Byte.openParen ∧ byte ≠ Byte.closeParen :=
    fun byte byte_mem => Byte.depthless_of_isIdentifier byte (identifiers byte byte_mem)
  have seam : Seam front.reverse written := by
    rw [site_eq] at plain
    exact Seam.of_word (by simpa [afterIdentifier, previous?] using plain) fun byte head_eq =>
      identifiers byte (List.mem_of_head? head_eq)
  obtain ⟨region, before_eq, region_eq⟩ : ∃ region, before = front ++ written ++ region ∧
      rest.dropWhile Byte.isIdentifier = region ++ after := by
    have whole : front ++ written ++ rest.dropWhile Byte.isIdentifier = before ++ after := by
      rw [List.append_assoc, rest_split, ← front_split, split]
    rcases List.append_eq_append_iff.mp whole with
      ⟨region, before_eq, rest_eq⟩ | ⟨extra, front_eq, after_eq⟩
    · exact ⟨region, before_eq, rest_eq⟩
    · have lengths := congrArg List.length front_eq
      simp only [List.length_append] at lengths
      obtain rfl : extra = [] := List.eq_nil_of_length_eq_zero (by omega)
      exact ⟨[], by simpa using front_eq.symm, by simpa using after_eq.symm⟩
  obtain ⟨lead, trail, lead_blank, trail_blank, parts_eq⟩ := exists_trim_append region
  refine ⟨front ++ written, lead, trim region, trail, ?_, ⟨front, _, rfl, length_eq.symm, name_eq⟩,
    ?_, ?_, ?_, lead_blank, trail_blank, head?_trim, getLast?_trim⟩
  · rw [← parts_eq, before_eq]
  · exact (closed_start_append closed seam).mpr (closed_of_plain _ _ quoteless)
  · rw [endDepth_start_append closed seam, endDepth_of_plain _ _ quoteless unnested, level]
  · rw [region_eq, parts_eq, ← List.append_assoc, List.append_assoc, List.head?_append] at begins
    cases first : (lead ++ trim region).head? with
    | none => rfl
    | some byte => simpa [first] using begins

/-! ## Longer beginnings -/

theorem Opening.extend {text other : Text} {source : Nat} {extra : List MarkAt}
    (opening : Opening text source) (closed : Closed (start other))
    (marks_eq : Outline.marks other = Outline.marks text ++ extra)
    (harmless : ∀ mark ∈ extra,
      mark.mark ≠ .combination ∧ mark.mark.isTail = false ∧ source ≤ mark.offset) :
    Opening other source := by
  refine ⟨closed, ?_, fun mark member => ?_, fun mark member clause mark_eq => ?_,
    fun mark member is_tail => ?_⟩
  · obtain ⟨mark, found, offset_eq⟩ := Option.map_eq_some_iff.mp opening.source_eq
    rw [marks_eq, List.find?_append, found]
    exact congrArg some offset_eq
  all_goals
    rw [marks_eq, List.mem_append] at member
    rcases member with member | member
  · exact opening.single mark member
  · exact (harmless mark member).1
  · exact opening.ordered mark member clause mark_eq
  · exact (harmless mark member).2.2
  · exact opening.no_tail mark member is_tail
  · simp [(harmless mark member).2.1] at is_tail

theorem Opening.source_lt {text : Text} {source : Nat} (opening : Opening text source) :
    source < text.length := by
  obtain ⟨mark, found, rfl⟩ := Option.map_eq_some_iff.mp opening.source_eq
  exact lt_length_of_mem_marks (List.mem_of_find?_eq_some found)

/-- A text with the same marks is a beginning as well. -/
theorem Opening.of_marks_eq {text other : Text} {source : Nat} (opening : Opening text source)
    (closed : Closed (start other)) (marks_eq : Outline.marks other = Outline.marks text) :
    Opening other source :=
  opening.extend closed (marks_eq.trans (List.append_nil _).symm) (by simp)

section Laid

variable {before head lead condition trail : Text} {source filter : Nat}
  (layout : Layout before filter head lead condition trail)

include layout in
theorem Layout.length_head : head.length = filter + 5 := by
  obtain ⟨front, written, rfl, rfl, name_eq⟩ := layout.filter_word
  have written_length := congrArg List.length name_eq
  rw [length_upper, show (ascii "WHERE").length = 5 from rfl] at written_length
  simp [written_length]

include layout in
theorem Layout.closed_lead : Closed (start (head ++ lead)) :=
  closed_append_blank layout.lead_blank layout.closed

include layout in
theorem Layout.level_lead : endDepth (start (head ++ lead)) = 0 :=
  (endDepth_append_blank layout.lead_blank layout.closed).trans layout.level

include layout in
theorem Layout.marks_lead : Outline.marks (head ++ lead) = Outline.marks head :=
  marks_append_blank layout.lead_blank layout.closed

include layout in
theorem Layout.broken : Break (head ++ lead).reverse condition := by
  obtain ⟨front, written, rfl, -, name_eq⟩ := layout.filter_word
  exact break_after_filter name_eq layout.lead_blank layout.begins

include layout in
/-- The text before a condition ends in its `WHERE` or in white space. -/
theorem Layout.last_byte {byte : Byte} (last_eq : (head ++ lead).reverse.head? = some byte) :
    byte.isIdentifier = true ∨ byte.isSpace = true := by
  obtain ⟨front, written, rfl, -, name_eq⟩ := layout.filter_word
  have is_name : IsName (ascii "WHERE") := by decide +kernel
  have identifiers := isIdentifier_of_upper_eq is_name.identifiers name_eq
  rw [List.reverse_append, List.head?_append] at last_eq
  cases space_eq : lead.reverse.head? with
  | some space =>
      obtain rfl : space = byte := by simpa [space_eq] using last_eq
      exact .inr (layout.lead_blank _ (List.mem_reverse.mp (List.mem_of_head? space_eq)))
  | none =>
      have nonempty : written ≠ [] := by
        rintro rfl
        exact is_name.nonempty name_eq.symm
      rw [space_eq, Option.none_or, List.reverse_append,
        List.head?_append_of_ne_nil _ (by simpa using nonempty)] at last_eq
      exact .inl (identifiers _ (List.mem_reverse.mp (List.mem_of_head? last_eq)))

include layout in
theorem Layout.undotted (rest : Text) : Undotted (head ++ lead).reverse rest :=
  Undotted.of_last (fun dotted => (layout.last_byte dotted).elim (by decide) (by decide)) rest

variable (closed : Closed (start before))

include layout closed in
theorem Layout.closed_core : Closed (start (head ++ lead ++ condition)) := by
  refine closed_of_append_blank layout.trail_blank ?_
  simpa [layout.split] using closed

include layout closed in
theorem Layout.closed_condition : Closed (start condition) :=
  (closed_start_append layout.closed_lead layout.broken.toSeam).mp (layout.closed_core closed)

include layout closed in
theorem Layout.marks_core : Outline.marks (head ++ lead ++ condition) = Outline.marks before := by
  have split : before = head ++ lead ++ condition ++ trail := by simp [layout.split]
  rw [split]
  exact (marks_append_blank layout.trail_blank (layout.closed_core closed)).symm

include layout closed in
theorem Layout.level_core :
    endDepth (start (head ++ lead ++ condition)) = endDepth (start before) := by
  have split : before = head ++ lead ++ condition ++ trail := by simp [layout.split]
  rw [split]
  exact (endDepth_append_blank layout.trail_blank (layout.closed_core closed)).symm

include layout closed in
/-- The marks after the `WHERE` are those of the condition. -/
theorem Layout.marks_before :
    Outline.marks before = Outline.marks head ++
      (Outline.marks condition).map (MarkAt.shift (head ++ lead).length) := by
  rw [← layout.marks_core closed, Outline.marks,
    marks_start_append layout.closed_lead layout.broken (layout.undotted _), layout.level_lead]
  exact congrArg (· ++ _) layout.marks_lead

end Laid

/-- The condition after the `WHERE` of the outermost query. -/
structure Filtered (before : Text) (source filter : Nat) (head lead condition trail : Text) : Prop
    extends Layout before filter head lead condition trail where
  opening : Opening before source
  filter_eq :
    ((Outline.marks before).find? fun mark => mark.mark == .clause .filter).map (·.offset) =
      some filter

section Filtered

variable {before head lead condition trail : Text} {source filter : Nat}
  (filtered : Filtered before source filter head lead condition trail)

include filtered in
theorem Filtered.source_le : source ≤ filter := by
  obtain ⟨mark, found, rfl⟩ := Option.map_eq_some_iff.mp filtered.filter_eq
  have kind : mark.mark = .clause .filter := by simpa using List.find?_some found
  exact filtered.opening.ordered mark (List.mem_of_find?_eq_some found) _ kind

include filtered in
/-- What is looked for and found through the `WHERE` is found in the text that ends in it. -/
theorem Filtered.find_head {wanted : MarkAt → Bool} {offset : Nat}
    (found : ((Outline.marks before).find? wanted).map (·.offset) = some offset)
    (early : offset ≤ filter) :
    ((Outline.marks head).find? wanted).map (·.offset) = some offset := by
  rw [filtered.marks_before filtered.opening.closed, List.find?_append] at found
  cases first : (Outline.marks head).find? wanted with
  | some mark => simpa [first] using found
  | none =>
      rw [first, Option.none_or] at found
      obtain ⟨mark, mark_found, rfl⟩ := Option.map_eq_some_iff.mp found
      obtain ⟨shifted, -, rfl⟩ := List.mem_map.mp (List.mem_of_find?_eq_some mark_found)
      have length_eq := filtered.length_head
      simp only [MarkAt.shift, List.length_append] at early
      omega

include filtered in
theorem Filtered.opening_head : Opening head source := by
  have inherited {mark : MarkAt} (member : mark ∈ Outline.marks head) :
      mark ∈ Outline.marks before := by
    rw [filtered.marks_before filtered.opening.closed]
    exact List.mem_append_left _ member
  have opening := filtered.opening
  exact ⟨filtered.closed, filtered.find_head opening.source_eq filtered.source_le,
    fun mark member => opening.single mark (inherited member),
    fun mark member => opening.ordered mark (inherited member),
    fun mark member => opening.no_tail mark (inherited member)⟩

include filtered in
/-- The marks of the condition do not end it and combine no queries. -/
theorem Filtered.harmless : ∀ mark ∈ Outline.marks condition,
    mark.mark ≠ .combination ∧ mark.mark.isTail = false := by
  intro mark member
  have there : mark.shift (head ++ lead).length ∈ Outline.marks before := by
    rw [filtered.marks_before filtered.opening.closed]
    exact List.mem_append_right _ (List.mem_map_of_mem member)
  refine ⟨filtered.opening.single (mark.shift _) there, Bool.eq_false_iff.mpr fun is_tail => ?_⟩
  have early := filtered.opening.no_tail (mark.shift _) there is_tail
  have source_le := filtered.source_le
  have length_eq := filtered.length_head
  simp only [MarkAt.shift, List.length_append] at early
  omega

end Filtered

/-! ## Beginnings that go on -/

section Onwards

variable {text : Text} {source : Nat} (opening : Opening text source)

theorem undotted_of_plain_head {byte : Byte} (identifier : byte.isIdentifier = false)
    (back rest : Text) : Undotted back (byte :: rest) := by
  intro _ mark _
  refine Bool.eq_false_iff.mpr fun occurs => ?_
  obtain ⟨-, first, others, rest_eq, word⟩ :=
    exists_of_spoken_ne (Mark.spoken_ne_of_occursAt occurs)
  obtain rfl : byte = first := by simpa [start] using congrArg List.head? rest_eq
  simp [identifier] at word

include opening in
/-- A beginning may go on with a text whose marks neither end a condition nor combine queries, and
the marks of the text are those that it has there. -/
theorem Opening.append {rest : Text} (broken : Break text.reverse rest)
    (undotted : Undotted text.reverse rest) (closed : Closed (start rest))
    (harmless : ∀ mark ∈ Outline.marks rest, mark.mark ≠ .combination ∧ mark.mark.isTail = false) :
    Opening (text ++ rest) source ∧
      endDepth (start (text ++ rest)) = endDepth ⟨[], rest, 0, endDepth (start text)⟩ ∧
      Outline.marks (text ++ rest) = Outline.marks text ++
        (Site.marks ⟨[], rest, 0, endDepth (start text)⟩).map (MarkAt.shift text.length) := by
  have marks_eq := marks_start_append opening.closed broken undotted
  refine ⟨opening.extend ?_ marks_eq fun mark member => ?_,
    endDepth_start_append opening.closed broken.toSeam, marks_eq⟩
  · exact (closed_start_append opening.closed broken.toSeam).mpr closed
  · obtain ⟨shifted, shifted_mem, rfl⟩ := List.mem_map.mp member
    have source_lt := opening.source_lt
    obtain ⟨single, no_tail⟩ := harmless shifted
      ((marks_sublist 0 (Nat.zero_le _)).subset shifted_mem)
    exact ⟨single, no_tail, by simp only [MarkAt.shift]; omega⟩

include opening in
/-- A beginning may go on with words after a blank. -/
theorem Opening.onwards (words : Text) (broken : Break text.reverse (Byte.blank :: words))
    (plain : ∀ byte ∈ Byte.blank :: words,
      byte.isQuote = false ∧ byte ≠ Byte.openParen ∧ byte ≠ Byte.closeParen)
    (harmless : ∀ mark ∈ Outline.marks (Byte.blank :: words),
      mark.mark ≠ .combination ∧ mark.mark.isTail = false) :
    Opening (text ++ Byte.blank :: words) source ∧
      endDepth (start (text ++ Byte.blank :: words)) = endDepth (start text) ∧
      Outline.marks (text ++ Byte.blank :: words) = Outline.marks text ++
        (Site.marks ⟨[], Byte.blank :: words, 0, endDepth (start text)⟩).map
          (MarkAt.shift text.length) := by
  obtain ⟨longer, level_eq, marks_eq⟩ := opening.append broken
    (undotted_of_plain_head (show Byte.blank.isIdentifier = false by decide) _ _)
    (closed_of_plain _ _ fun byte member => (plain byte member).1) harmless
  refine ⟨longer, level_eq.trans ?_, marks_eq⟩
  exact endDepth_of_plain _ _ (fun byte member => (plain byte member).1)
    fun byte member => (plain byte member).2

include opening in
/-- A beginning may go on with a visible byte of no word and no literal, which has no marks. -/
theorem Opening.append_byte (byte : Byte) (identifier : byte.isIdentifier = false)
    (quote : byte.isQuote = false) (visible : byte.isSpace = false) :
    Opening (text ++ [byte]) source ∧
      endDepth (start (text ++ [byte])) = depthAfter byte (endDepth (start text)) ∧
      Outline.marks (text ++ [byte]) = Outline.marks text := by
  have wordless (depth : Nat) : Site.marks ⟨[], [byte], 0, depth⟩ = [] :=
    marks_of_wordless _ _ (by simpa using identifier)
  have no_marks : Outline.marks [byte] = [] := wordless 0
  have broken : Break text.reverse [byte] := Break.of_plain_head identifier quote visible _ _
  obtain ⟨longer, level_eq, marks_eq⟩ := opening.append broken
    (undotted_of_plain_head identifier _ _) (closed_of_plain _ _ (by simpa using quote))
    (by simp [no_marks])
  rw [endDepth_cons _ _ _ _ quote, endDepth_nil] at level_eq
  rw [wordless, List.map_nil, List.append_nil] at marks_eq
  exact ⟨longer, level_eq, marks_eq⟩

theorem break_before_conjunction (back : Text) : Break back (ascii " AND ") :=
  ⟨Seam.of_plain_head (by decide) (by decide) _ _, fun _ => by decide⟩

theorem break_before_filter (back : Text) : Break back (ascii " WHERE ") :=
  ⟨Seam.of_plain_head (by decide) (by decide) _ _, fun _ => by decide⟩

include opening in
theorem Opening.conjunction :
    Opening (text ++ ascii " AND ") source ∧
      endDepth (start (text ++ ascii " AND ")) = endDepth (start text) ∧
      Outline.marks (text ++ ascii " AND ") = Outline.marks text := by
  have no_marks : Outline.marks (Byte.blank :: ascii "AND ") = [] := by decide +kernel
  have none_deeper : Site.marks ⟨[], Byte.blank :: ascii "AND ", 0, endDepth (start text)⟩ = [] :=
    List.sublist_nil.mp (no_marks ▸ marks_sublist 0 (Nat.zero_le _))
  obtain ⟨longer, level_eq, marks_eq⟩ := opening.onwards (ascii "AND ")
    (break_before_conjunction _) (by decide +kernel) (by decide +kernel)
  rw [none_deeper, List.map_nil, List.append_nil] at marks_eq
  exact ⟨longer, level_eq, marks_eq⟩

include opening in
theorem Opening.filter :
    Opening (text ++ ascii " WHERE ") source ∧
      endDepth (start (text ++ ascii " WHERE ")) = endDepth (start text) ∧
      (endDepth (start text) = 0 → Outline.marks (text ++ ascii " WHERE ") =
        Outline.marks text ++ [⟨.clause .filter, text.length + 1⟩]) := by
  have one_mark : Outline.marks (Byte.blank :: ascii "WHERE ") = [⟨.clause .filter, 1⟩] := by
    decide +kernel
  obtain ⟨longer, level_eq, marks_eq⟩ := opening.onwards (ascii "WHERE ")
    (break_before_filter _) (by decide +kernel) (by decide +kernel)
  refine ⟨longer, level_eq, fun level => marks_eq.trans ?_⟩
  have here : Site.marks ⟨[], Byte.blank :: ascii "WHERE ", 0, 0⟩ = [⟨.clause .filter, 1⟩] :=
    one_mark
  rw [level, here, List.map_singleton, MarkAt.shift, Nat.add_comm 1]

include opening in
/-- A beginning may go on with a text in parentheses, and the marks of the text are
those that it has there. -/
theorem Opening.parenthesized (level : endDepth (start text) = 0) {condition : Text}
    (closed : Closed (start condition))
    (harmless : ∀ mark ∈ Outline.marks condition,
      mark.mark ≠ .combination ∧ mark.mark.isTail = false) :
    Opening (text ++ [Byte.openParen] ++ condition ++ [Byte.closeParen]) source ∧
      endDepth (start (text ++ [Byte.openParen] ++ condition ++ [Byte.closeParen])) =
        endDepth ⟨[], condition, 0, 1⟩ - 1 ∧
      Outline.marks (text ++ [Byte.openParen] ++ condition ++ [Byte.closeParen]) =
        Outline.marks text ++
          (Site.marks ⟨[], condition, 0, 1⟩).map (MarkAt.shift (text.length + 1)) := by
  obtain ⟨opened, open_level, open_marks⟩ :=
    opening.append_byte Byte.openParen (by decide) (by decide) (by decide)
  have one_deeper : endDepth (start (text ++ [Byte.openParen])) = 1 := by
    rw [open_level, level]
    rfl
  have broken : Break (text ++ [Byte.openParen]).reverse condition := by
    rw [List.reverse_append]
    exact Break.of_plain_last (by decide) (by decide) (by decide) _ _
  have undotted : Undotted (text ++ [Byte.openParen]).reverse condition := by
    refine Undotted.of_last ?_ _
    rw [List.reverse_append]
    simp [show Byte.openParen ≠ Byte.dot by decide]
  obtain ⟨inner, inner_level, inner_marks⟩ := opened.append broken undotted closed harmless
  obtain ⟨wrapped, level_eq, marks_eq⟩ :=
    inner.append_byte Byte.closeParen (by decide) (by decide) (by decide)
  rw [inner_level, one_deeper] at level_eq
  rw [inner_marks, one_deeper, open_marks, List.length_append] at marks_eq
  exact ⟨wrapped, level_eq, marks_eq⟩

end Onwards

end Scope

end TenantScope
