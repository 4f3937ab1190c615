import TenantScope.Proofs.Cutting
import TenantScope.Proofs.Stems
import TenantScope.Repair.MisplacedFilter

/-!
# Moving a misplaced condition

When the first `WHERE` of a text comes after another clause, its region is taken out, and the
condition is put in front of the earliest clause.  After that the text begins with a `WHERE` among
its clauses, unless the condition was empty.
-/

namespace TenantScope

open Text Site Literal

namespace Sign

/-- Before the first newcomer no clause begins. -/
theorem exists_of_newcomers_eq_cons {element : Type} {begins? : element → Option Clause}
    {found others : List element} {first : element}
    (new : newcomers begins? [] found = first :: others) :
    ∃ front rest, found = front ++ first :: rest ∧ front.filterMap begins? = [] ∧
      begins? first ≠ none := by
  induction found with
  | nil => simp [newcomers] at new
  | cons sign found ih =>
      rw [newcomers] at new
      cases begun : begins? sign with
      | none =>
          have old : isOld begins? [] sign = true := by simp [isOld, begun]
          rw [old, if_pos rfl, begun] at new
          obtain ⟨front, rest, rfl, front_eq, first_begins⟩ := ih new
          refine ⟨sign :: front, rest, rfl, ?_, first_begins⟩
          rw [List.filterMap_cons_none begun, front_eq]
      | some kind =>
          have fresh : isOld begins? [] sign = false := by simp [isOld, begun]
          rw [fresh, if_neg Bool.false_ne_true, List.singleton_append, List.cons.injEq] at new
          obtain ⟨rfl, -⟩ := new
          exact ⟨[], found, rfl, rfl, by simp [begun]⟩

end Sign

namespace Outline

variable {text : Text} {first : ClauseAt} {rest : List ClauseAt}
  (listed : (ofText text).clauses = first :: rest)

include listed

theorem offset_lt_of_mem {found : ClauseAt} (member : found ∈ rest) : first.offset < found.offset :=
  (List.pairwise_cons.mp (listed ▸ pairwise_clauses text)).1 found member

/-- The earliest clause other than `WHERE` is the first one listed, or comes after it. -/
theorem earliestTail?_eq (other : first.clause ≠ .filter) :
    (ofText text).earliestTail? = some first.offset := by
  rw [earliestTail?, listed, List.filter_cons_of_pos (by simpa using other), List.map_cons,
    List.min?_eq_some_iff]
  refine ⟨List.mem_cons_self, fun place member => ?_⟩
  rcases List.mem_cons.mp member with rfl | member
  · exact le_refl _
  · obtain ⟨found, found_mem, rfl⟩ := List.mem_map.mp member
    exact (offset_lt_of_mem listed (List.mem_filter.mp found_mem).1).le

theorem lt_of_earliestTail? (is_filter : first.clause = .filter) {tail : Nat}
    (found : (ofText text).earliestTail? = some tail) : first.offset < tail := by
  rw [earliestTail?, listed, List.filter_cons_of_neg (by simp [is_filter])] at found
  obtain ⟨clause, member, rfl⟩ := List.mem_map.mp (List.min?_mem found)
  exact offset_lt_of_mem listed (List.mem_filter.mp member).1

theorem le_of_find? {kind : Clause} {place : Nat} (found : (ofText text).find? kind = some place) :
    first.offset ≤ place := by
  have member := mem_clauses_iff.mpr found
  rw [listed] at member
  rcases List.mem_cons.mp member with same | member
  · rw [← same]
  · exact (offset_lt_of_mem listed member).le

end Outline

/-! ## Texts before a condition -/

/-- White space may be taken off a text at a halt. -/
theorem Halt.trimRight {text : Text} (halt : Halt text) :
    Closed (start text.trimRight) ∧ endDepth (start text.trimRight) = 0 ∧
      (start text.trimRight).kinds = (start text).kinds := by
  have closed : Closed (start text.trimRight) := closed_trimRight.mpr halt.closed
  have level := (endDepth_trimRight halt.closed).trans halt.level
  refine ⟨closed, level, ?_⟩
  obtain ⟨trail, blank, split⟩ := exists_trimRight_append text
  have signs_eq := signs_append_trails closed level (Token.trails_of_blank blank)
  rw [← split] at signs_eq
  rw [kinds, kinds, signs_eq]

/-- The parts of a well-formed text are well formed: all through its `WHERE`, the same with the
white space after it, and the condition. -/
theorem Scope.Layout.wellformed {before head lead condition trail : Text} {filter : Nat}
    (layout : Scope.Layout before filter head lead condition trail) (whole : Wellformed before) :
    Wellformed head ∧ Wellformed (head ++ lead) ∧ Wellformed condition := by
  have core_closed := layout.closed_core whole.closed
  have trails := Token.trails_of_blank layout.trail_blank
  have balanced := whole.balanced
  rw [layout.split, ← List.append_assoc, ← List.append_assoc,
    balanced_append_trails core_closed trails] at balanced
  have seam := layout.broken.toSeam
  obtain ⟨lead_nested, nested⟩ := (nested_start_append layout.closed_lead seam).mp balanced.nested
  have level := balanced.level
  rw [endDepth_start_append layout.closed_lead seam] at level
  rw [layout.level_lead] at nested level
  have head_nested :=
    ((nested_start_append layout.closed (Seam.of_blank_right layout.lead_blank _)).mp lead_nested).1
  exact ⟨⟨layout.closed, head_nested, layout.level⟩,
    ⟨layout.closed_lead, lead_nested, layout.level_lead⟩,
    ⟨layout.closed_condition whole.closed, nested, level⟩⟩

/-- The signs of an introduced condition are that of its `WHERE` and its own. -/
theorem signs_where (text : Text) :
    (start (ascii " WHERE " ++ text)).signs = ⟨.clause .filter, 1⟩ ::
      (start text).signs.map fun found => { found with offset := found.offset + 7 } := by
  have name : IsName (ascii "WHERE") := by decide
  have split :
      ascii " WHERE " ++ text = Byte.blank :: (ascii "WHERE" ++ (Byte.blank :: text)) := rfl
  have signed : sign? ⟨[Byte.blank], ascii "WHERE" ++ (Byte.blank :: text), 0 + 1,
      depthAfter Byte.blank 0⟩ = some (.clause .filter) := by
    rw [sign?_eq_some, Sign.ofWords?_eq_clause, spoken,
      takeWhile_isIdentifier_append name.identifiers (by simp; decide)]
    exact ⟨⟨rfl, rfl⟩, rfl⟩
  have parted : Parted (ascii " WHERE ").reverse text :=
    { toSeam := Seam.of_plain_last (by decide) (by decide) (ascii " WHERE").reverse text
      phrase := fun ends => absurd ends (by decide)
      dot := fun dotted => absurd dotted (by decide) }
  rw [signs, split, start, filterMap_code_plain signAt?_of_silent _ _ (by decide) (by decide),
    filterMap_code_word signAt?_of_silent _ _ name, signAt?, signed,
    filterMap_code_plain signAt?_of_silent _ _ (by decide) (by decide)]
  exact congrArg (List.cons _) (signs_of_parted 7 0 parted)

/-- A condition may be introduced after anything. -/
theorem parted_where (back text : Text) : Parted back (ascii " WHERE " ++ text) where
  toSeam := Seam.of_plain_head (by decide) (by decide) _ _
  phrase _ := rfl
  dot _ := sign?_of_wordless rfl

namespace Repair

/-- A text whose clauses begin with a `WHERE`, or which has none, stays as it is. -/
theorem relocateFilter_of_first {statement : Statement}
    (first : statement.outline.clauses.head?.all fun found => found.clause == .filter) :
    relocateFilter statement = statement := by
  rw [relocateFilter]
  split
  · rename_i place tail found_filter found_tail
    cases listed : statement.outline.clauses with
    | nil => simp [Outline.find?, ClauseAt.find?, listed] at found_filter
    | cons clause rest =>
        rw [listed] at first
        have is_filter : clause.clause = .filter := by simpa using first
        have found_first : statement.outline.find? .filter = some clause.offset :=
          Outline.mem_clauses_iff.mp (by
            rw [← is_filter]
            exact listed ▸ List.mem_cons_self)
        rw [found_first, Option.some.injEq] at found_filter
        rw [if_pos (found_filter ▸ Outline.lt_of_earliestTail? listed is_filter found_tail)]
  · rfl

section Misplaced

variable {statement : Statement} {place : Nat} {before inside after : List SignAt} {tail : SignAt}
  {others : List SignAt} (region : Region statement.text .filter place before inside after)
  (first : Sign.newcomers SignAt.clause? [] before = tail :: others)

/-- The text without the region of the `WHERE`. -/
def withoutRegion (text : Text) (place : Nat) (after : List SignAt) : Text :=
  text.take place ++ text.drop (stopBefore text after)

include region in
theorem signs_withoutRegion :
    (start (withoutRegion statement.text place after)).signs =
      before ++ (start (statement.text.drop (stopBefore statement.text after))).signs.map
        fun sign => { sign with offset := sign.offset + (statement.text.take place).length } :=
  signs_without region.signs_eq region.ends

include region first

/-- The first clause of a text that begins with the signs before a misplaced
`WHERE` is another one. -/
theorem earliestTail?_of_signs {text : Text} {more : List SignAt}
    (signs_eq : (start text).signs = before ++ more) :
    (Outline.ofText text).earliestTail? = some tail.offset ∧
      ∀ offset ∈ (Outline.ofText text).find? .filter, tail.offset ≤ offset := by
  have tail_mem : tail ∈ before := (Sign.newcomers_sublist _ _).subset (first ▸ List.mem_cons_self)
  have clauses_eq := Outline.clauses_ofText text
  rw [signs_eq, Sign.newcomers_append, first, List.cons_append] at clauses_eq
  obtain ⟨clause, rest, listed, rfl, -⟩ := List.map_eq_cons_iff.mp clauses_eq
  have other : clause.clause ≠ .filter := fun is_filter =>
    region.first (List.mem_filterMap.mpr ⟨_, tail_mem, by rw [← is_filter]; rfl⟩)
  exact ⟨Outline.earliestTail?_eq listed other,
    fun offset found => Outline.le_of_find? listed found⟩

/-- A misplaced `WHERE` is taken out, and its condition, if there is one, comes
before the first clause. -/
theorem relocateFilter_of_misplaced :
    let condition := Text.trim (Statement.slice statement.text (place + 5)
      (stopBefore statement.text after))
    relocateFilter statement = statement.withText
      (if condition.isEmpty then withoutRegion statement.text place after
      else
        Text.trimRight (statement.text.take tail.offset) ++ ascii " WHERE " ++ conjunct condition ++
          [Byte.blank] ++ (withoutRegion statement.text place after).drop tail.offset) := by
  intro condition
  have tail_mem : tail ∈ before := (Sign.newcomers_sublist _ _).subset (first ▸ List.mem_cons_self)
  have signs_eq := region.signs_eq
  have tail_lt : tail.offset < place := by
    have ordered := signs_eq ▸ pairwise_signs statement.text
    exact (List.pairwise_append.mp ordered).2.2 tail tail_mem _ List.mem_cons_self
  have found : statement.outline.find? .filter = some place := region.find?_eq
  have length_eq :
      ((Site.atOffset statement.text place).word? Clause.filter.keyword).getD 0 = 5 := by
    have signed := (sign?_atOffset (signs_eq ▸ List.mem_append_right _ List.mem_cons_self)).2
    have spoken_eq : (Site.atOffset statement.text place).spoken = Clause.filter.keyword :=
      Sign.ofWords?_eq_clause.mp (sign?_eq_some.mp signed).2
    rw [word?_of_isName (by decide), if_pos spoken_eq]
    rfl
  have tail_eq : statement.outline.earliestTail? = some tail.offset :=
    (earliestTail?_of_signs region first signs_eq).1
  obtain ⟨tail_eq', filter_le⟩ := earliestTail?_of_signs region first (signs_withoutRegion region)
  have late : ((Outline.ofText (withoutRegion statement.text place after)).find? .filter).any
      (· < tail.offset) = false := by
    cases found : (Outline.ofText (withoutRegion statement.text place after)).find? .filter with
    | none => rfl
    | some offset => simpa using filter_le offset found
  rw [relocateFilter, found, tail_eq]
  simp only
  rw [if_neg (by omega), moveFilter, length_eq, region.regionEnd_eq statement rfl]
  have kept : (withoutRegion statement.text place after).take tail.offset =
      statement.text.take tail.offset := by
    have within : tail.offset ≤ (statement.text.take place).length := by
      have bounded := (halt_of_mem_signs (signs_eq ▸ List.mem_append_left _ tail_mem)).2.2
      rw [List.length_take]
      omega
    rw [withoutRegion, List.take_append_of_le_length within, List.take_take,
      Nat.min_eq_left tail_lt.le]
  have without_eq :
      statement.text.take place ++ statement.text.drop (stopBefore statement.text after) =
      withoutRegion statement.text place after := rfl
  have outline_eq : (statement.withText (withoutRegion statement.text place after)).outline =
      Outline.ofText (withoutRegion statement.text place after) := rfl
  rw [without_eq, outline_eq, tail_eq']
  split
  · rfl
  · simp only [insertCondition, Statement.withText, late, kept, Bool.false_eq_true, if_false]
    rfl

/-- What the signs of a text with a misplaced `WHERE` become. -/
theorem kinds_relocateFilter :
    (start (relocateFilter statement).text).kinds =
        before.map SignAt.sign ++ after.map SignAt.sign ∨
      ∃ front rest, front.filterMap Sign.clause? = [] ∧
        (start (relocateFilter statement).text).kinds = front ++ .clause .filter :: rest := by
  rw [relocateFilter_of_misplaced region first]
  split
  · exact .inl (region.kinds_without region.signs_eq)
  · obtain ⟨front, rest, before_eq, front_clauses, -⟩ := Sign.exists_of_newcomers_eq_cons first
    have signs_eq := region.signs_eq
    rw [before_eq, List.append_assoc, List.cons_append] at signs_eq
    have tail_mem := signs_eq ▸ List.mem_append_right front List.mem_cons_self
    obtain ⟨closed, level, trimmed⟩ := (halt_of_mem_signs tail_mem).1.trimRight
    have head_eq := (signs_split signs_eq).1
    simp only [Statement.withText, List.append_assoc]
    generalize conjunct _ ++ _ = condition
    have kinds_eq : (start (ascii " WHERE " ++ condition)).kinds =
        .clause .filter :: (start condition).kinds := by
      rw [kinds, signs_where, List.map_cons, List.map_map]
      rfl
    refine .inr ⟨front.map SignAt.sign, (start condition).kinds, ?_, ?_⟩
    · rw [List.filterMap_map]
      exact front_clauses
    · rw [kinds, signs_start_append closed level (parted_where _ _), List.map_append, List.map_map]
      change (start (trimRight _)).kinds ++ (start (ascii " WHERE " ++ condition)).kinds = _
      rw [trimmed, kinds_eq, kinds, head_eq]

end Misplaced

/-- Up to the end of a region a text is laid out with the condition after its first `WHERE`, unless
the condition is empty. -/
theorem exists_layout_condition {text : Text} {place stop : Nat}
    (found : (Outline.ofText text).find? .filter = some place) (ends : Ends text stop) :
    Text.trim (Statement.slice text (place + 5) stop) = [] ∨
      ∃ head lead trail, Scope.Layout (text.take stop) place head lead
        (Text.trim (Statement.slice text (place + 5) stop)) trail := by
  by_cases fits : place + 5 ≤ stop
  · have length_eq : (text.take stop).length = stop := by
      rw [List.length_take, Nat.min_eq_left ends.le_length]
    obtain ⟨head, lead, condition, trail, layout⟩ := Scope.exists_layout
      (Scope.mem_marks_of_find? found) (List.take_append_drop stop text).symm (by omega)
    have condition_eq : Text.trim (Statement.slice text (place + 5) stop) = condition := by
      rw [Statement.slice, ← List.drop_take, layout.split, List.drop_left' layout.length_head,
        trim_of_visible layout.lead_blank layout.trail_blank layout.first_visible
          layout.last_visible]
    exact .inr ⟨head, lead, trail, condition_eq ▸ layout⟩
  · refine .inl ?_
    rw [Statement.slice, Nat.sub_eq_zero_of_le (by omega), List.take_zero]
    rfl

/-- The condition of a well-formed text is well formed. -/
theorem wellformed_condition {text : Text} (whole : Wellformed text) {place stop : Nat}
    (found : (Outline.ofText text).find? .filter = some place) (ends : Ends text stop) :
    Wellformed (Text.trim (Statement.slice text (place + 5) stop)) := by
  rcases exists_layout_condition found ends with empty | ⟨head, lead, trail, layout⟩
  · rw [empty]
    decide
  · exact (layout.wellformed (whole.take_drop ends).1).2.2

theorem wellformed_conjunct {condition : Text} (whole : Wellformed condition) :
    Wellformed (conjunct condition) := by
  rw [conjunct]
  split
  · exact whole.parenthesized
  · exact whole

theorem wellformed_trimRight {text : Text} (whole : Wellformed text) :
    Wellformed text.trimRight := by
  obtain ⟨trail, blank, split⟩ := exists_trimRight_append text
  have trimmed : Closed (start text.trimRight) := closed_trimRight.mpr whole.closed
  have balanced := whole.balanced
  rw [split] at balanced
  exact ⟨trimmed, (balanced_append_trails trimmed (Token.trails_of_blank blank)).mp balanced⟩

/-- What comes before the first clause stays well formed with a condition introduced after it. -/
theorem wellformed_introduced {head condition : Text} (front : Wellformed head)
    (inner : Wellformed condition) :
    Wellformed (head.trimRight ++ ascii " WHERE " ++ conjunct condition ++ [Byte.blank]) := by
  have introduction : Wellformed (ascii " WHERE ") := by decide
  have blank : Wellformed [Byte.blank] := by decide
  have introduced := ((wellformed_trimRight front).append introduction
    (Seam.of_plain_head (by decide) (by decide) _ _)).append (wellformed_conjunct inner) (by
      rw [List.reverse_append]
      exact Seam.of_plain_last (by decide) (by decide) _ _)
  exact introduced.append blank (Seam.of_plain_head (by decide) (by decide) _ _)

/-- Moving a condition keeps a text well formed. -/
theorem wellformed_relocateFilter {statement : Statement} (whole : Wellformed statement.text) :
    Wellformed (relocateFilter statement).text := by
  cases found : statement.outline.find? .filter with
  | none =>
      have kept : relocateFilter statement = statement := by rw [relocateFilter, found]
      rwa [kept]
  | some place =>
      obtain ⟨before, inside, after, region⟩ := exists_region found
      cases first : Sign.newcomers SignAt.clause? [] before with
      | nil =>
          have clauses_eq := region.clauses_eq
          rw [first, List.nil_append] at clauses_eq
          obtain ⟨clause, rest, listed, clause_eq, -⟩ := List.map_eq_cons_iff.mp clauses_eq
          have is_filter : clause.clause = .filter := by
            simpa [ClauseAt.toSign] using congrArg SignAt.sign clause_eq
          have kept := @relocateFilter_of_first statement (by
            rw [show statement.outline.clauses = clause :: rest from listed]
            simp [is_filter])
          rwa [kept]
      | cons tail others =>
          rw [relocateFilter_of_misplaced region first]
          have own : (⟨.clause .filter, place⟩ : SignAt) ∈ (start statement.text).signs :=
            region.signs_eq ▸ List.mem_append_right _ List.mem_cons_self
          have without : Wellformed (withoutRegion statement.text place after) :=
            whole.without own region.ends
          rw [Statement.withText]
          split
          · exact without
          · have tail_mem : tail ∈ before :=
              (Sign.newcomers_sublist _ _).subset (first ▸ List.mem_cons_self)
            have ahead := Ends.sign (region.signs_eq ▸ List.mem_append_left _ tail_mem)
            have behind := Ends.sign (signs_withoutRegion region ▸ List.mem_append_left _ tail_mem)
            have introduced := wellformed_introduced (whole.take_drop ahead).1
              (wellformed_condition whole found region.ends)
            exact introduced.append (without.take_drop behind).2 (by
              rw [List.reverse_append]
              exact Seam.of_plain_last (by decide) (by decide) _ _)

end Repair

end TenantScope
