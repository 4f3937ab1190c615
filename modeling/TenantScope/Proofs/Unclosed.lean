import TenantScope.Proofs.Extents
import TenantScope.Proofs.Injection

/-!
# Literals that nothing closes

A predicate in the slot of a statement whose last literal is not closed ends up inside that literal,
or its first mark closes the literal and its second one begins another that nothing closes.  So a
scoped statement whose literals are closed comes from one whose literals were.
-/

namespace TenantScope

namespace Literal

theorem closing?_eq_none_of_not_mem {mark : Byte} (escapes : Bool) {text : Text}
    (free : mark ∉ text) : closing? mark escapes text = none :=
  closing?_append_eq_none (rfl : closing? mark escapes [] = none) free

/-- A literal runs through the first mark of its kind if no mark is doubled and no
backslash stands before it. -/
theorem closing?_of_plain {mark : Byte} {escapes : Bool} (mark_ne : mark ≠ Byte.backslash)
    {content rest : Text} (plain : ∀ byte ∈ content, byte ≠ mark ∧ byte ≠ Byte.backslash)
    (single : rest.head? ≠ some mark) :
    closing? mark escapes (content ++ mark :: rest) = some (content.length + 1) := by
  induction content with
  | nil =>
      cases rest with
      | nil => simp [closing?, mark_ne]
      | cons next rest =>
          have next_ne : next ≠ mark := by simpa using single
          simp [closing?, mark_ne, next_ne]
  | cons byte content ih =>
      rw [List.forall_mem_cons] at plain
      rw [List.cons_append, closing?_cons plain.1.1 (fun _ => plain.1.2), ih plain.2]
      rfl

/-- The next mark closes a literal that nothing has closed before. -/
theorem closing?_of_unclosed {mark : Byte} {escapes : Bool} {text middle rest : Text}
    (mark_ne : mark ≠ Byte.backslash) (unclosed : closing? mark escapes text = none)
    (plain : ∀ byte ∈ middle, byte ≠ mark ∧ byte ≠ Byte.backslash) (nonempty : middle ≠ [])
    (single : rest.head? ≠ some mark) :
    closing? mark escapes (text ++ (middle ++ mark :: rest)) =
      some (text.length + (middle.length + 1)) := by
  fun_induction closing? mark escapes text with
  | case1 => simpa using closing?_of_plain mark_ne plain single
  | case2 byte escaped =>
      obtain ⟨first, middle, rfl⟩ := List.exists_cons_of_ne_nil nonempty
      rw [List.forall_mem_cons] at plain
      have inner : closing? mark escapes (middle ++ mark :: rest) = some (middle.length + 1) :=
        closing?_of_plain mark_ne plain.2 single
      have step : closing? mark escapes (byte :: first :: (middle ++ mark :: rest)) =
          (closing? mark escapes (middle ++ mark :: rest)).map (· + 2) := by
        rw [closing?, if_pos escaped]
      rw [List.singleton_append, List.cons_append, step, inner, Option.map_some]
      simp only [List.length_cons, List.length_nil]
      congr 1
      omega
  | case3 byte escaped next rest ih =>
      have inner := ih (by simpa using unclosed)
      simp only [List.cons_append, closing?, escaped, if_true, inner, Option.map_some,
        List.length_cons]
      congr 1
      omega
  | case4 => simp at unclosed
  | case5 byte plain_byte same next rest doubled ih =>
      have inner := ih (by simpa using unclosed)
      simp only [List.cons_append, closing?, plain_byte, same, doubled, if_true, if_false,
        Bool.false_eq_true, inner, Option.map_some, List.length_cons]
      congr 1
      omega
  | case6 => simp at unclosed
  | case7 byte rest plain_byte other ih =>
      have inner := ih (by simpa using unclosed)
      rw [List.cons_append, closing?_cons (by simpa using other) (by simpa using plain_byte), inner]
      simp only [Option.map_some, List.length_cons]
      congr 1
      omega

end Literal

namespace Scope

open Text Site Literal

/-- Bytes without quotation marks are read one by one. -/
theorem closed_plain_append {back plain rest : Text} (offset depth : Nat)
    (quoteless : ∀ byte ∈ plain, byte.isQuote = false) :
    ∃ offset' depth', Closed ⟨back, plain ++ rest, offset, depth⟩ ↔
      Closed ⟨plain.reverse ++ back, rest, offset', depth'⟩ := by
  induction plain generalizing back offset depth with
  | nil => exact ⟨offset, depth, Iff.rfl⟩
  | cons byte plain ih =>
      rw [List.forall_mem_cons] at quoteless
      obtain ⟨offset', depth', rest_iff⟩ :=
        @ih (byte :: back) (offset + 1) (depthAfter byte depth) quoteless.2
      refine ⟨offset', depth', ?_⟩
      rw [List.cons_append, closed_cons _ _ _ _ quoteless.1, rest_iff]
      simp

/-- No mark begins an identifier. -/
theorem IsTenantId.head?_append_ne {id : Text} (valid : IsTenantId id) {mark : Byte}
    (quote : mark.isQuote = true) (more : Text) : (id ++ more).head? ≠ some mark := by
  obtain ⟨first, others, rfl⟩ : ∃ first others, id = first :: others := by
    refine List.exists_cons_of_ne_nil fun empty => ?_
    exact valid.visible (by rw [empty]; rfl)
  have first_plain := valid.unquoted first List.mem_cons_self
  rintro head_eq
  obtain rfl : first = mark := by simpa using head_eq
  simp [quote] at first_plain

section Quoted

variable {back rest middle id after : Text} {offset depth : Nat} (valid : IsTenantId id)
  (plain : ∀ byte ∈ middle, byte.isQuote = false ∧ byte ≠ Byte.backslash)
  (quoteless : ∀ byte ∈ after, byte.isQuote = false)

include valid plain quoteless

/-- The first mark of a quoted identifier closes a literal that nothing has closed, and the second
mark begins another. -/
theorem not_closed_apostrophe_quoted (nonempty : middle ≠ [])
    (unclosed :
      closing? Byte.apostrophe (escapesAfter .standard back Byte.apostrophe) rest = none) :
    ¬ Closed
      ⟨back, Byte.apostrophe :: (rest ++ (middle ++ (quoted id ++ after))), offset, depth⟩ := by
  have other_marks (byte : Byte) (member : byte ∈ middle) :
      byte ≠ Byte.apostrophe ∧ byte ≠ Byte.backslash := by
    refine ⟨?_, (plain byte member).2⟩
    rintro rfl
    exact absurd (plain _ member).1 (by decide)
  have single :=
    valid.head?_append_ne (show Byte.apostrophe.isQuote = true by decide)
      ([Byte.apostrophe] ++ after)
  have closes := closing?_of_unclosed (by decide) unclosed other_marks nonempty single
  have text_eq : rest ++ (middle ++ (quoted id ++ after)) =
      (rest ++ (middle ++ [Byte.apostrophe])) ++ (id ++ ([Byte.apostrophe] ++ after)) := by
    simp [quoted]
  have literal_eq : closing? Byte.apostrophe (escapesAfter .standard back Byte.apostrophe)
      ((rest ++ (middle ++ [Byte.apostrophe])) ++ (id ++ ([Byte.apostrophe] ++ after))) =
        some (rest ++ (middle ++ [Byte.apostrophe])).length := by
    simpa using closes
  rw [text_eq, closed_literal _ _ _ _ _ (by decide) literal_eq]
  obtain ⟨offset', depth', rest_iff⟩ := closed_plain_append _ _ valid.unquoted
  rw [rest_iff]
  exact not_closed_unclosed _ _ _ _ (by decide) (closing?_eq_none_of_not_mem _ fun member =>
    absurd (quoteless _ member) (by decide))

/-- A literal of another kind that nothing closes runs over a quoted identifier. -/
theorem not_closed_mark_quoted {mark : Byte} (quote : mark.isQuote = true)
    (other : mark ≠ Byte.apostrophe)
    (unclosed : closing? mark (escapesAfter .standard back mark) rest = none) :
    ¬ Closed ⟨back, mark :: (rest ++ (middle ++ (quoted id ++ after))), offset, depth⟩ := by
  refine not_closed_unclosed _ _ _ _ quote (closing?_append_eq_none unclosed fun member => ?_)
  have not_in {text : Text} (unquoted : ∀ byte ∈ text, byte.isQuote = false) : mark ∉ text :=
    fun inside => by simp [unquoted mark inside] at quote
  simp only [quoted, List.mem_append, List.mem_cons, List.not_mem_nil, other, or_false, false_or]
    at member
  rcases member with inside | inside | inside
  · exact not_in (fun byte member => (plain byte member).1) inside
  · exact not_in valid.unquoted inside
  · exact not_in quoteless inside

end Quoted

/-- A quoted identifier after a literal that nothing closes leaves one that nothing closes. -/
theorem not_closed_append_quoted {back text middle id after : Text} {offset depth : Nat}
    (unclosed : ¬ Closed ⟨back, text, offset, depth⟩) (nonempty : middle ≠ [])
    (plain : ∀ byte ∈ middle, byte.isQuote = false ∧ byte ≠ Byte.backslash)
    (valid : IsTenantId id) (quoteless : ∀ byte ∈ after, byte.isQuote = false) :
    ¬ Closed ⟨back, text ++ (middle ++ (quoted id ++ after)), offset, depth⟩ := by
  induction back, text using lexeme_induction .standard generalizing offset depth with
  | nil back => exact absurd (closed_nil _ _ _) unclosed
  | code back byte rest no_quote ih =>
      rw [closed_cons _ _ _ _ no_quote] at unclosed
      rw [List.cons_append, closed_cons _ _ _ _ no_quote]
      exact ih unclosed
  | literal back mark literal rest quote closed ih =>
      rw [closed_literal _ _ _ _ _ quote closed] at unclosed
      have still_closed : closing? mark (escapesAfter .standard back mark)
          (literal ++ (rest ++ (middle ++ (quoted id ++ after)))) = some literal.length := by
        rw [← List.append_assoc]
        refine closing?_append closed _ fun head_eq => ?_
        rw [List.head?_append_of_ne_nil _ nonempty] at head_eq
        have no_quote := (plain mark (List.mem_of_head? head_eq)).1
        simp [quote] at no_quote
      rw [List.cons_append, List.append_assoc, closed_literal _ _ _ _ _ quote still_closed]
      exact ih unclosed
  | unclosed back mark rest quote still_open =>
      rw [List.cons_append]
      by_cases apostrophe : mark = Byte.apostrophe
      · subst apostrophe
        exact not_closed_apostrophe_quoted valid plain quoteless nonempty still_open
      · exact not_closed_mark_quoted valid plain quoteless quote apostrophe still_open

/-! ## Statements with such a literal -/

section Unclosed

variable {column id body after : Text} (name : IsName column) (valid : IsTenantId id)
  (quoteless : ∀ byte ∈ after, byte.isQuote = false)

include name valid quoteless in
/-- A predicate after a joint that goes on from a literal that nothing closes. -/
theorem not_closed_append_predicate {text joining : Text} (unclosed : ¬ Closed (start text))
    (plain_joining : ∀ byte ∈ joining, byte.isQuote = false ∧ byte ≠ Byte.backslash) :
    ¬ Closed (start (text ++ (joining ++ predicate column id ++ after))) := by
  have middle_plain : ∀ byte ∈ joining ++ comparison column,
      byte.isQuote = false ∧ byte ≠ Byte.backslash := by
    intro byte member
    rcases List.mem_append.mp member with member | member
    · exact plain_joining byte member
    · rcases List.mem_append.mp member with member | member
      · have word := name.identifiers byte member
        refine ⟨Byte.isQuote_of_isIdentifier byte word, ?_⟩
        rintro rfl
        exact absurd word (by decide)
      · have table : ∀ byte ∈ ascii " = ", byte.isQuote = false ∧ byte ≠ Byte.backslash := by
          decide +kernel
        exact table byte member
  have text_eq : text ++ (joining ++ predicate column id ++ after) =
      text ++ ((joining ++ comparison column) ++ (quoted id ++ after)) := by
    simp [predicate_eq]
  rw [text_eq]
  exact not_closed_append_quoted unclosed (by simp [comparison, ascii]) middle_plain valid quoteless

include name valid quoteless in
/-- A literal that nothing closes before the slot for a new condition. -/
theorem not_closed_fill_newConditionSlot (unclosed : ¬ Closed (start body)) :
    ¬ Closed (start
      ((newConditionSlot (body ++ after) body.length).fill (predicate column id))) := by
  rw [newConditionSlot_eq]
  have core_unclosed : ¬ Closed (start (trimRight body)) := mt closed_trimRight.mp unclosed
  generalize rest_eq :
    (if body.length < Statement.bodyEnd (body ++ after) then [Byte.blank] else []) ++ after = rest
  have rest_quoteless : ∀ byte ∈ rest, byte.isQuote = false := by
    rw [← rest_eq]
    intro byte member
    rcases List.mem_append.mp member with member | member
    · split at member
      · exact Byte.isQuote_of_isSpace byte (by rw [List.mem_singleton.mp member]; decide)
      · simp at member
    · exact quoteless byte member
  have text_eq : Slot.fill ⟨trimRight body ++ ascii " WHERE ", rest⟩ (predicate column id) =
      trimRight body ++ (ascii " WHERE " ++ predicate column id ++ rest) := by
    simp [Slot.fill]
  rw [text_eq]
  exact not_closed_append_predicate name valid rest_quoteless core_unclosed (by decide +kernel)

include name valid quoteless in
/-- A literal that nothing closes in a condition. -/
theorem not_closed_fill_conditionSlot {filter : Nat} {head lead condition trail : Text}
    (layout : Layout body filter head lead condition trail) (unclosed : ¬ Closed (start body))
    (hasOr : Bool) :
    ¬ Closed (start
      ((conditionSlot (body ++ after) (filter + 5) body.length hasOr).fill
        (predicate column id))) := by
  have split : body = head ++ lead ++ condition ++ trail := by simp [layout.split]
  have condition_unclosed : ¬ Closed (start condition) := by
    refine fun closed => unclosed ?_
    rw [split]
    exact closed_append_blank layout.trail_blank
      ((closed_start_append layout.closed_lead layout.broken.toSeam).mpr closed)
  have nonempty : condition ≠ [] := by
    rintro rfl
    exact condition_unclosed (closed_nil _ _ _)
  have rest_quoteless : ∀ byte ∈ trail ++ after, byte.isQuote = false := by
    intro byte member
    rcases List.mem_append.mp member with member | member
    · exact Byte.isQuote_of_isSpace byte (layout.trail_blank byte member)
    · exact quoteless byte member
  have seam_onwards {onwards : Text} :
      Seam (head ++ lead).reverse (condition ++ onwards) := by
    have seam := layout.broken.toSeam
    have head_eq : (condition ++ onwards).head? = condition.head? :=
      List.head?_append_of_ne_nil _ nonempty
    exact ⟨head_eq ▸ seam.word, head_eq ▸ seam.mark, head_eq ▸ seam.escape⟩
  rw [conditionSlot_visible layout nonempty after]
  cases hasOr with
  | false =>
      have text_eq : Slot.fill ⟨head ++ lead ++ leading condition false, trail ++ after⟩
          (predicate column id) = (head ++ lead) ++
            (condition ++ (ascii " AND " ++ predicate column id ++ (trail ++ after))) := by
        simp [Slot.fill, leading, nonempty]
      rw [text_eq, closed_start_append layout.closed_lead seam_onwards]
      exact not_closed_append_predicate name valid rest_quoteless condition_unclosed
        (by decide +kernel)
  | true =>
      have text_eq : Slot.fill ⟨head ++ lead ++ leading condition true, trail ++ after⟩
          (predicate column id) = (head ++ lead ++ [Byte.openParen]) ++
            (condition ++ (ascii ") AND " ++ predicate column id ++ (trail ++ after))) := by
        simp [Slot.fill, leading, nonempty]
      have open_closed : Closed (start (head ++ lead ++ [Byte.openParen])) :=
        (closed_start_append layout.closed_lead
          (Seam.of_plain_head (by decide) (by decide) _ _)).mpr
            (closed_of_plain _ _ (by decide +kernel))
      have seam : Seam (head ++ lead ++ [Byte.openParen]).reverse
          (condition ++ (ascii ") AND " ++ predicate column id ++ (trail ++ after))) := by
        rw [List.reverse_append]
        exact Seam.of_plain_last (by decide) (by decide) _ _
      rw [text_eq, closed_start_append open_closed seam]
      exact not_closed_append_predicate name valid rest_quoteless condition_unclosed
        (by decide +kernel)

end Unclosed

/-- If the literals of a statement with its slot filled are closed, they were before. -/
theorem closed_of_closed_fill {text column id : Text} {tenant : Tenant} {source : Source}
    {slot : Slot} (name : IsName column) (valid : IsTenantId id)
    (found : sourceOf tenant (Outline.ofText text) = .ok source)
    (chosen : slot? text column (Outline.ofText text) source = .ok (some slot))
    (filled : Closed (start (slot.fill (predicate column id)))) : Closed (start text) := by
  obtain ⟨-, source_eq, single, ordered, canonical⟩ := sourceOf_eq_ok found
  have resumes := resumes_of_mem_marks (mem_marks_of_source? source_eq)
  have point_eq := insertionPoint_eq resumes ordered
  cases first : (Outline.marks text).find? fun mark =>
      decide (source.offset ≤ mark.offset) && mark.mark.isTail with
  | some mark =>
      obtain ⟨before, after, length_eq, parting⟩ := parting_of_mark first
      rw [firstTail?, first, Option.map_some, Option.getD_some, ← length_eq] at point_eq
      have wanted := List.find?_some first
      simp only [Bool.and_eq_true, decide_eq_true_eq] at wanted
      have division : Division text source before after :=
        ⟨source_eq, single, ordered, canonical, point_eq.symm, by omega, parting⟩
      obtain ⟨filter, fitting, -⟩ := division.fitting chosen
      rw [parting.split, closed_start_append parting.closed parting.broken.toSeam]
      exact (fitting.closed_fill_iff name valid parting.ending).mp filled
  | none =>
      rw [firstTail?, first, Option.map_none, Option.getD_none] at point_eq
      by_contra unclosed
      obtain ⟨body, after, split, length_eq, shape⟩ := exists_bodyEnd text
      rw [← length_eq] at point_eq
      have after_plain : ∀ byte ∈ after, byte.isQuote = false ∧ byte.isIdentifier = false := by
        have blank_plain {byte : Byte} (space : byte.isSpace = true) :
            byte.isQuote = false ∧ byte.isIdentifier = false :=
          ⟨Byte.isQuote_of_isSpace byte space, Byte.isIdentifier_of_isSpace byte space⟩
        rcases shape with ⟨blank, is_blank, rfl⟩ | ⟨is_blank, -⟩
        · rw [List.forall_mem_cons]
          exact ⟨by decide, fun byte member => blank_plain (is_blank byte member)⟩
        · exact fun byte member => blank_plain (is_blank byte member)
      have quoteless : ∀ byte ∈ after, byte.isQuote = false := fun byte member =>
        (after_plain byte member).1
      have body_unclosed : ¬ Closed (start body) := by
        refine fun closed => unclosed ?_
        have seam : Seam body.reverse after := by
          cases after_eq : after with
          | nil => exact Seam.of_nil_right _
          | cons byte rest =>
              have known := after_plain byte (by simp [after_eq])
              exact Seam.of_plain_head known.2 known.1 _ _
        rw [split, closed_start_append closed seam]
        exact closed_of_plain _ _ quoteless
      rcases slot_cases chosen with ⟨-, rfl⟩ | ⟨filter, filter_eq, inside, rfl⟩
      · rw [point_eq, split] at filled
        exact not_closed_fill_newConditionSlot name valid quoteless body_unclosed filled
      · have member := mem_marks_of_find? filter_eq
        rw [point_eq] at inside
        have fits :=
          add_five_le_of_mem_marks member split fun byte byte_mem => (after_plain byte byte_mem).2
        obtain ⟨head, lead, condition, trail, layout⟩ := exists_layout member split fits
        rw [point_eq] at filled
        generalize hasAlternatives text (filter + 5) body.length = hasOr at filled
        rw [split] at filled
        exact not_closed_fill_conditionSlot name valid quoteless layout body_unclosed hasOr filled

end Scope

end TenantScope
