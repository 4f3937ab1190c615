import TenantScope.Proofs.Isolation
import TenantScope.Proofs.Stages

/-!
# Terminators

A rewritten statement ends in a semicolon, and it has no other one outside its literals.  A second
one can only stand behind it where the end of a text was copied behind a literal that nothing
closed, and a quotation mark in the identifier of the tenant closed the literal after all.
-/

namespace TenantScope

open Text Site Literal Token

/-! ## Semicolons outside literals -/

/-- Offsets of the semicolons of a text outside its literals. -/
def semicolons (text : Text) : List Nat :=
  ((start text).code.filter fun site => site.byte? == some Byte.semicolon).map Site.offset

namespace Policy

/-- White space before a text has no say in whether a statement follows another one in it. -/
theorem isStacked_append_left {lead : Text} (blank : ∀ byte ∈ lead, byte.isSpace = true)
    (text : Text) :
    isStacked (lead ++ text) = isStacked text := by
  induction lead with
  | nil => rfl
  | cons space lead ih =>
      rw [List.forall_mem_cons] at blank
      have other : space ≠ Byte.semicolon := fun same => absurd (same ▸ blank.1) (by decide)
      have seam : Seam [space] (lead ++ text) := Seam.of_blank_left (by simpa using blank.1) _
      have flat : depthAfter space 0 = 0 :=
        depthAfter_of_flat (Byte.depthless_of_isSpace space blank.1) 0
      let ends (site : Site) : Bool := site.byte? == some Byte.semicolon
      have passed : ¬ ends ⟨[], space :: (lead ++ text), 0, 0⟩ = true := by
        simpa [ends, byte?] using other
      rw [← ih blank.2, List.cons_append, isStacked, isStacked, start, start,
        code_cons _ _ _ _ (Byte.isQuote_of_isSpace space blank.1),
        @List.find?_cons_of_neg _ ends _ _ passed,
        flat, code_of_seam seam, List.find?_map,
        show ends ∘ precede [space] (0 + 1) = ends from rfl]
      cases (code ⟨[], lead ++ text, 0, 0⟩).find? ends <;> rfl

/-- Behind a semicolon of a text that is no stack of statements nothing but more of them and white
space follows. -/
theorem trails_of_not_isStacked {text : Text} (single : isStacked text = false) {site : Site}
    (member : site ∈ (start text).code) (ends : site.byte? = some Byte.semicolon) :
    ∀ byte ∈ site.rest, trails byte = true := by
  cases found : (start text).code.find? fun site => site.byte? == some Byte.semicolon with
  | none => exact absurd (beq_iff_eq.mpr ends) (List.find?_eq_none.mp found site member)
  | some first =>
      have le := offset_le_of_find? (pairwise_code_start text) found member (beq_iff_eq.mpr ends)
      rw [isStacked, found] at single
      have trailing : ∀ byte ∈ first.rest, trails byte = true := by
        simpa [trails, or_comm, imp_iff_or_not] using single
      have place (site : Site) (member : site ∈ (start text).code) :
          site.rest = text.drop site.offset :=
        (of_mem_tour_start (List.mem_filter.mp member).1).2
      rw [place site member]
      rw [place first (List.mem_of_find?_eq_some found)] at trailing
      exact fun byte listed => trailing byte ((List.drop_sublist_drop_left text le).subset listed)

end Policy

/-! ## Texts that semicolons end -/

/-- The text ends in so many semicolons, before which something else stands. -/
def Ended (count : Nat) (text : Text) : Prop :=
  ∃ front, text = front ++ List.replicate count Byte.semicolon ∧
    ∀ last ∈ front.getLast?, trails last = false

/-- Semicolons in a row are all found. -/
theorem filter_code_replicate (count : Nat) (back : Text) (offset depth : Nat) :
    ((code ⟨back, List.replicate count Byte.semicolon, offset, depth⟩).filter fun site =>
      site.byte? == some Byte.semicolon).map Site.offset = List.range' offset count := by
  induction count generalizing back offset depth with
  | zero => rfl
  | succ count ih =>
      rw [List.replicate_succ, code_cons _ _ _ _ (by decide),
        List.filter_cons_of_pos (by simp [byte?]), List.map_cons, ih, List.range'_succ]

/-- The semicolons that end a single statement are the only ones in it. -/
theorem semicolons_of_ended {count : Nat} {text : Text} (ended : Ended count text)
    (closed : Closed (start text)) (single : Policy.isStacked text = false) :
    semicolons text = List.range' (text.length - count) count := by
  obtain ⟨front, rfl, visible⟩ := ended
  have plain : ∀ byte ∈ List.replicate count Byte.semicolon, byte.isQuote = false :=
    fun byte member => by
    rw [List.eq_of_mem_replicate member]
    decide
  have front_closed : Closed (start front) := closed_of_append_plain plain closed
  have seam : Seam (front.reverse ++ []) (List.replicate count Byte.semicolon) := by
    cases count with
    | zero => exact Seam.of_nil_right _
    | succ count => exact Seam.of_plain_head (by decide) (by decide) _ _
  have split : (start (front ++ List.replicate count Byte.semicolon)).code =
      (start front).code.map (extend (List.replicate count Byte.semicolon)) ++ _ :=
    code_append 0 0 front_closed seam
  have none_within : ((start front).code.map (extend (List.replicate count Byte.semicolon))).filter
      (fun site => site.byte? == some Byte.semicolon) = [] := by
    refine List.filter_eq_nil_iff.mpr fun site member ends => ?_
    have trailing := Policy.trails_of_not_isStacked single
      (split ▸ List.mem_append_left _ member) (beq_iff_eq.mp ends)
    obtain ⟨place, place_mem, rfl⟩ := List.mem_map.mp member
    obtain ⟨-, rest_eq⟩ := of_mem_tour_start (List.mem_filter.mp place_mem).1
    have rest_ne := rest_ne_nil_of_mem_walk (List.mem_filter.mp place_mem).1
    obtain ⟨before, last, rest_last⟩ := (List.eq_nil_or_concat place.rest).resolve_left rest_ne
    rw [List.concat_eq_append] at rest_last
    have last_eq : front.getLast? = some last := by
      rw [← List.take_append_drop place.offset front, ← rest_eq, rest_last, ← List.append_assoc,
        List.getLast?_concat]
    have trails_last := trailing last (by simp [extend, rest_last])
    rw [visible last last_eq] at trails_last
    cases trails_last
  rw [semicolons, split, List.filter_append, none_within, List.nil_append, filter_code_replicate]
  simp

/-- What trails behind a text that a semicolon ends is that semicolon. -/
theorem Ended.of_suffix {text copied : Text} (ended : Ended 1 text) (suffix_eq : copied <:+ text)
    (trailing : ∀ byte ∈ copied, trails byte = true) : copied = [] ∨ copied = [Byte.semicolon] := by
  obtain ⟨front, rfl, visible⟩ := ended
  obtain ⟨before, split⟩ := suffix_eq
  rcases List.eq_nil_or_concat copied with rfl | ⟨more, last, rfl⟩
  · exact .inl rfl
  · rw [List.concat_eq_append, ← List.append_assoc] at split
    obtain ⟨front_eq, last_eq⟩ := List.append_inj' split rfl
    obtain rfl : last = Byte.semicolon := by simpa using last_eq
    rcases List.eq_nil_or_concat more with rfl | ⟨most, final, rfl⟩
    · exact .inr rfl
    · have trails_final := trailing final (by simp)
      rw [visible final (by rw [← front_eq, List.concat_eq_append, ← List.append_assoc,
        List.getLast?_concat]; rfl)] at trails_final
      cases trails_final

theorem ended_terminate {text : Text} (nonempty : NormalForm.terminate text ≠ []) :
    Ended 1 (NormalForm.terminate text) := by
  rw [terminate_eq] at nonempty ⊢
  split
  · rename_i nothing
    exact absurd (if_pos nothing) nonempty
  · refine ⟨dropRightWhile trails text, rfl, fun last last_eq => ?_⟩
    rw [dropRightWhile, List.getLast?_reverse] at last_eq
    have known := List.head?_dropWhile_not trails text.reverse
    rwa [Option.mem_def.mp last_eq] at known

/-- The body of a text that semicolons end is shorter than the text. -/
theorem Ended.bodyEnd_lt {count : Nat} {text : Text} (ended : Ended count text)
    (some_end : 0 < count) :
    Statement.bodyEnd text < text.length := by
  obtain ⟨front, rfl, -⟩ := ended
  obtain ⟨fewer, rfl⟩ := Nat.exists_eq_succ_of_ne_zero some_end.ne'
  rw [List.replicate_succ', ← List.append_assoc, Statement.bodyEnd_semicolon (by simp)]
  simp

/-- Behind the semicolons at the end of a text there is no white space to trim. -/
theorem Ended.isStacked_trim {count : Nat} {text : Text} (ended : Ended count text)
    (some_end : 0 < count) :
    Policy.isStacked text.trim = Policy.isStacked text := by
  obtain ⟨lead, trail, lead_blank, trail_blank, split⟩ := exists_trim_append text
  have last_eq : text.getLast? = some Byte.semicolon := by
    obtain ⟨front, rfl, -⟩ := ended
    obtain ⟨fewer, rfl⟩ := Nat.exists_eq_succ_of_ne_zero some_end.ne'
    rw [List.replicate_succ', ← List.append_assoc, List.getLast?_concat]
  have nothing : trail = [] := by
    rcases List.eq_nil_or_concat trail with rfl | ⟨more, last, rfl⟩
    · rfl
    · rw [split, List.concat_eq_append, ← List.append_assoc, ← List.append_assoc,
        List.getLast?_concat]
        at last_eq
      rw [Option.some.inj last_eq] at trail_blank
      exact absurd (trail_blank Byte.semicolon (by simp)) (by decide)
  conv => rhs; rw [split, Policy.isStacked_append_left lead_blank, nothing, List.append_nil]

/-- The end of a text that semicolons end, from some place of its body on, ends in as many of them
or in fewer, whatever comes before it. -/
theorem Ended.append {count place : Nat} {text before : Text} (ended : Ended count text)
    (within : place < text.length) (some_end : 0 < count)
    (visible : (∀ last ∈ before.getLast?, trails last = false) ∨
      (text.drop place).head?.any Byte.isIdentifier = true) :
    ∃ fewer, 0 < fewer ∧ fewer ≤ count ∧ Ended fewer (before ++ text.drop place) := by
  obtain ⟨front, rfl, front_visible⟩ := ended
  rw [List.drop_append, List.drop_replicate] at visible ⊢
  rw [List.length_append, List.length_replicate] at within
  rcases Nat.lt_or_ge place front.length with inside | behind
  · refine ⟨count, some_end, le_refl count, before ++ front.drop place, ?_, fun last last_eq => ?_⟩
    · rw [Nat.sub_eq_zero_of_le inside.le, Nat.sub_zero, List.append_assoc]
    · have more : front.drop place ≠ [] := by simpa using inside
      rw [List.getLast?_append_of_ne_nil _ more, List.getLast?_drop, if_neg (by omega)] at last_eq
      exact front_visible last last_eq
  · rw [List.drop_eq_nil_of_le behind, List.nil_append] at visible ⊢
    refine ⟨count - (place - front.length), by omega, Nat.sub_le _ _, before, rfl, ?_⟩
    refine visible.resolve_right fun identifier => ?_
    obtain ⟨left, left_eq⟩ := Nat.exists_eq_succ_of_ne_zero
      (show count - (place - front.length) ≠ 0 by omega)
    rw [left_eq, List.replicate_succ, List.head?_cons, Option.any_some] at identifier
    exact absurd identifier (by decide)

/-! ## Repaired statements -/

namespace Repair

variable {rules : ScopeRules} {tenant : Tenant}

/-- A pass leaves a semicolon at the end of a text, or two of them in a literal that nothing
closes. -/
theorem ended_pass (columns : EveryColumn IsName rules tenant) (statement : Statement)
    (nonempty : (pass rules tenant statement).text ≠ []) :
    ∃ count, Ended count (pass rules tenant statement).text ∧
      (count = 1 ∨ count = 2 ∧ ¬ Closed (start (pass rules tenant statement).text)) := by
  obtain ⟨tokens, lexed, text_eq⟩ :=
    exists_lexed (relocateFilter (cutTrailingConditions statement)).text
  have normal_eq : (normalize (relocateFilter (cutTrailingConditions statement))).text =
      spell (normal tokens) := by
    rw [normalize, Statement.withText, ← text_eq, normalize_spell lexed]
  obtain ⟨others, copied, others_lexed, similar, copied_eq, suffix_eq, named_eq⟩ :=
    exists_similar_aliasColumn columns (lexed_normal lexed) normal_eq
  have settled := terminate_of_similar others_lexed similar
  rw [pass, named_eq, Statement.withText] at nonempty ⊢
  simp only at nonempty ⊢
  rcases copied_eq with rfl | ⟨unclosed, trailing⟩
  · rw [List.append_nil, ← settled] at nonempty ⊢
    exact ⟨1, ended_terminate nonempty, .inl rfl⟩
  · have ended {tokens' : List Token} (lexed' : Lexed none tokens')
        (similar' : Similar (normal tokens) tokens') :
        Ended 1 (spell tokens') := by
      have settled' := terminate_of_similar lexed' similar'
      rw [← settled']
      refine ended_terminate fun nothing => unclosed ?_
      obtain rfl := @eq_of_spell_eq none _ [] lexed' trivial (settled' ▸ nothing)
      exact (whole_of_similar similar).mpr ((whole_of_similar similar').mp (by simp [Whole]))
    have others_ended := ended others_lexed similar
    rw [normal_eq] at suffix_eq
    rcases (ended (lexed_normal lexed) (similar_refl _)).of_suffix suffix_eq trailing with rfl | rfl
    · rw [List.append_nil]
      exact ⟨1, others_ended, .inl rfl⟩
    · obtain ⟨front, front_eq, visible⟩ := others_ended
      refine ⟨2, ⟨front, ?_, visible⟩, .inr ⟨rfl, fun closed => unclosed ?_⟩⟩
      · rw [front_eq, List.append_assoc]
        rfl
      · exact (closed_start_spell others_lexed).mp
          (closed_of_append_plain (List.forall_mem_singleton.mpr (by decide)) closed)

end Repair

/-! ## Scoped statements -/

namespace Scope

theorem head?_drop_of_mem_marks {text : Text} {mark : MarkAt} (member : mark ∈ Outline.marks text) :
    (text.drop mark.offset).head?.any Byte.isIdentifier = true := by
  have counts := (atOffset_of_mem_marks member).2
  obtain ⟨-, byte, rest, rest_eq, identifier⟩ :=
    exists_of_spoken_ne (Mark.spoken_ne_of_occursAt (Mark.countsAt_iff.mp counts).2.1)
  rw [show text.drop mark.offset = byte :: rest from rest_eq]
  exact identifier

/-- The predicate goes to the end of the body or before a word of it. -/
theorem insertionPoint_cases {text : Text} {tenant : Tenant} {source : Source}
    (found : sourceOf tenant (Outline.ofText text) = .ok source) :
    insertionPoint text (Outline.ofText text) source = Statement.bodyEnd text ∨
      (text.drop (insertionPoint text (Outline.ofText text) source)).head?.any Byte.isIdentifier =
        true := by
  obtain ⟨-, source_eq, -, ordered, -⟩ := sourceOf_eq_ok found
  rw [insertionPoint_eq (resumes_of_mem_marks (mem_marks_of_source? source_eq)) ordered]
  cases first : firstTail? text source.offset with
  | none => exact .inl rfl
  | some stop =>
      obtain ⟨mark, mark_found, rfl⟩ := Option.map_eq_some_iff.mp first
      exact .inr (head?_drop_of_mem_marks (List.mem_of_find?_eq_some mark_found))

/-- Behind a slot the text goes on from some place of its body. -/
theorem exists_place_of_slot {text column : Text} {tenant : Tenant} {source : Source} {slot : Slot}
    (found : sourceOf tenant (Outline.ofText text) = .ok source)
    (chosen : slot? text column (Outline.ofText text) source = .ok (some slot)) :
    ∃ place pad, place ≤ Statement.bodyEnd text ∧ slot.after = pad ++ text.drop place ∧
      (pad = [] ∨ (text.drop place).head?.any Byte.isIdentifier = true) := by
  have point_cases := insertionPoint_cases found
  have within : insertionPoint text (Outline.ofText text) source ≤ Statement.bodyEnd text :=
    point_cases.elim le_of_eq fun word => (Statement.lt_bodyEnd word).le
  rcases slot_cases chosen with ⟨-, rfl⟩ | ⟨filter, filter_eq, inside, rfl⟩
  · refine ⟨_, _, within, rfl, ?_⟩
    rcases point_cases with last | word
    · exact .inl (if_neg (by omega))
    · exact .inr word
  · have fits := add_five_le_bodyEnd (mem_marks_of_find? filter_eq)
    generalize insertionPoint text (Outline.ofText text) source = stop at *
    generalize hasAlternatives text (filter + 5) stop = hasOr
    have last_le : filter + 5 + (trimRight (Statement.slice text (filter + 5) stop)).length ≤
        Statement.bodyEnd text := by
      have slice_le : (Statement.slice text (filter + 5) stop).length ≤ stop - (filter + 5) :=
        List.length_take_le _ _
      have shorter := length_dropRightWhile_le Byte.isSpace (Statement.slice text (filter + 5) stop)
      rw [trimRight]
      omega
    exact ⟨_, [], last_le, conditionSlot_after _ _ _ _, .inl rfl⟩

/-- A scoped statement ends in as many semicolons as it did before, or in fewer. -/
theorem exists_ended_inject {rules : ScopeRules} {tenant : Tenant} {statement result : Statement}
    {count : Nat} (ended : Ended count statement.text) (some_end : 0 < count)
    (injected : inject rules tenant statement = .ok result) :
    ∃ fewer, 0 < fewer ∧ fewer ≤ count ∧ Ended fewer result.text := by
  obtain ⟨source, found, ⟨rfl, -⟩ | ⟨slot, chosen, rfl, -⟩⟩ := inject_cases injected
  · exact ⟨count, some_end, le_refl count, ended⟩
  · obtain ⟨place, pad, within, after_eq, pad_cases⟩ := exists_place_of_slot found chosen
    rw [Statement.withText, Slot.fill, after_eq, ← List.append_assoc]
    have shorter := ended.bodyEnd_lt some_end
    refine ended.append (by omega) some_end ?_
    refine pad_cases.imp_left ?_
    rintro rfl last last_eq
    rw [List.append_nil, getLast?_append_predicate] at last_eq
    obtain rfl := Option.some.inj last_eq
    decide

theorem text_ne_nil_of_inject {rules : ScopeRules} {tenant : Tenant} {statement result : Statement}
    (injected : inject rules tenant statement = .ok result) : statement.text ≠ [] := by
  obtain ⟨source, found, -⟩ := inject_cases injected
  have within := lt_length_of_mem_marks (mem_marks_of_source? (sourceOf_eq_ok found).2.1)
  intro nothing
  rw [nothing] at within
  exact absurd within (Nat.not_lt_zero _)

/-- If the literals of a scoped statement are closed, they were before, unless the identifier of the
tenant holds a quotation mark. -/
theorem closed_of_inject {rules : ScopeRules} {tenant : Tenant} {statement result : Statement}
    (columns : EveryColumn IsName rules tenant)
    (unquoted : ∀ byte ∈ tenant.id, byte.isQuote = false)
    (injected : inject rules tenant statement = .ok result) (closed : Closed (start result.text)) :
    Closed (start statement.text) := by
  obtain ⟨source, found, ⟨rfl, -⟩ | ⟨slot, chosen, rfl, -⟩⟩ := inject_cases injected
  · exact closed
  · exact closed_of_closed_fill (columns.columnOf _) ⟨(sourceOf_eq_ok found).1,
      unquoted⟩ found chosen closed

end Scope

/-! ## Rewritten statements -/

theorem EveryColumn.completed {kind : Text → Prop} {rules : Rules} {tenant : Tenant}
    (columns : EveryColumn kind rules.scope tenant) :
    EveryColumn kind rules.scope (rules.completed tenant) := by
  unfold Rules.completed
  split
  · exact ⟨columns.general, .inr columns.general, columns.single⟩
  · exact columns

namespace Rules

theorem ended_repaired {rules : Rules} {tenant : Tenant} {received sanitized : Text}
    (columns : EveryColumn IsName rules.scope tenant)
    (nonempty : (rules.repaired tenant received sanitized).text ≠ []) :
    ∃ count, Ended count (rules.repaired tenant received sanitized).text ∧
      (count = 1 ∨ count = 2 ∧
        ¬ Closed (start (rules.repaired tenant received sanitized).text)) := by
  obtain ⟨fewer, passes_eq⟩ : ∃ fewer, max 1 rules.repair.passes = fewer + 1 :=
    ⟨max 1 rules.repair.passes - 1, by omega⟩
  rw [repaired, Statement.repair, Repair.run_eq_iterate, passes_eq, Function.iterate_succ_apply']
    at nonempty ⊢
  exact Repair.ended_pass columns _ nonempty

/-- A rewritten statement whose literals are all closed has one semicolon outside of them, at its
end, or else a second one: where the end of the repaired statement was copied behind a literal that
nothing closed, and a quotation mark in the identifier of the tenant closed it. -/
theorem semicolons_of_rewrite {rules : Rules} {tenant : Tenant} {received output : Text}
    (columns : EveryColumn IsName rules.scope tenant)
    (rewritten : (rules.rewrite tenant received).result = .ok output)
    (closed : Closed (start output)) :
    semicolons output = [output.length - 1] ∨
      semicolons output = [output.length - 2, output.length - 1] ∧
        ascii ";;" <:+ (rules.repaired (rules.completed tenant) received received.sanitize).text ∧
        ¬ Closed (start (rules.repaired (rules.completed tenant) received received.sanitize).text) ∧
        ∃ byte ∈ tenant.id, byte.isQuote = true := by
  obtain ⟨result, injected, rfl⟩ := injected_of_rewrite rewritten
  have names := columns.completed
  obtain ⟨count, ended, count_cases⟩ := ended_repaired names (Scope.text_ne_nil_of_inject injected)
  obtain ⟨fewer, some_end, fewer_le, result_ended⟩ :=
    Scope.exists_ended_inject ended (by omega) injected
  have single := (Policy.injectionRejection?_eq_none.mp
    (Policy.rejection?_eq_none.mp (allowed_of_rewrite rewritten)).2.1).2.2.2.2
  rw [result_ended.isStacked_trim some_end] at single
  have found := semicolons_of_ended result_ended closed single
  obtain rfl | more : fewer = 1 ∨ 1 < fewer := by omega
  · exact .inl found
  · obtain ⟨rfl, unclosed⟩ := count_cases.resolve_left (by omega)
    obtain rfl : fewer = 2 := by omega
    refine .inr ⟨?_, ?_, unclosed, ?_⟩
    · obtain ⟨front, text_eq, -⟩ := result_ended
      rw [found, text_eq]
      simp [List.range'_succ]
    · obtain ⟨front, text_eq, -⟩ := ended
      exact ⟨front, text_eq.symm⟩
    · by_contra quoteless
      refine unclosed (Scope.closed_of_inject names (fun byte member => ?_) injected closed)
      rw [id_completed] at member
      exact Bool.eq_false_iff.mpr fun quote => quoteless ⟨byte, member, quote⟩

/-- Semicolons in literals do not count, and those at the end of a statement become one. -/
theorem semicolons_of_rewrite_alternatives :
    (Rules.rewrite {} { id := ascii "x" }
      (ascii "SELECT a FROM t WHERE b = 'c;' OR d = 2;;")).result =
        .ok (ascii "SELECT a FROM t WHERE (b = 'c;' OR d = 2) AND tenant_id = 'x';") ∧
      semicolons (ascii "SELECT a FROM t WHERE (b = 'c;' OR d = 2) AND tenant_id = 'x';") =
        [61] := by
  have rewritten : (Rules.rewrite {} { id := ascii "x" }
      (ascii "SELECT a FROM t WHERE b = 'c;' OR d = 2;;")).result =
        .ok (ascii "SELECT a FROM t WHERE (b = 'c;' OR d = 2) AND tenant_id = 'x';") := by
    decide +kernel
  refine ⟨rewritten,
    (semicolons_of_rewrite (by decide +kernel) rewritten (by decide +kernel)).resolve_right
    fun ⟨_, _, _, quoted⟩ => ?_⟩
  exact absurd quoted (by decide)

/-- A literal that nothing closed runs over the end of the body, and the semicolon there is
copied. -/
theorem semicolons_of_rewrite_copied :
    let tenant : Tenant :=
      { id := ascii "a'b", columns := .ofList [(ascii "t", ascii "TENANT_ID")] }
    EveryColumn IsName ({} : ScopeRules) tenant ∧
      (Rules.rewrite {} tenant
        (ascii "SELECT * FROM t WHERE tenant_id = 1 OR b OFFSET 'c")).result =
        .ok (ascii "SELECT * FROM t WHERE (TENANT_ID = 1 OR b) AND TENANT_ID = 'a'b' OFFSET 'c;;") ∧
      Closed (start
        (ascii "SELECT * FROM t WHERE (TENANT_ID = 1 OR b) AND TENANT_ID = 'a'b' OFFSET 'c;;")) ∧
      semicolons
          (ascii "SELECT * FROM t WHERE (TENANT_ID = 1 OR b) AND TENANT_ID = 'a'b' OFFSET 'c;;") =
        [74, 75] := by
  decide +kernel

end Rules

end TenantScope
