import TenantScope.Proofs.Splicing

/-!
# Balanced parentheses

The depth of a place does not count closing parentheses that open nothing, so it says how many
parentheses are open only where none of these came before.  Without them a text that stands in more
parentheses is read at greater depth throughout.
-/

namespace TenantScope

namespace Site

open Literal

/-- Every closing parenthesis from the place on closes one that is open. -/
def Nested (site : Site) : Prop :=
  ∀ place ∈ site.code, place.byte? = some Byte.closeParen → place.depth ≠ 0

instance (site : Site) : Decidable (Closed site) :=
  inferInstanceAs (Decidable (∀ _ ∈ _, _))

instance (site : Site) : Decidable (Nested site) :=
  inferInstanceAs (Decidable (∀ _ ∈ _, _ → _))

/-- The parentheses of a text outside its literals come in pairs. -/
structure Balanced (text : Text) : Prop where
  nested : Nested (start text)
  level : endDepth (start text) = 0

instance (text : Text) : Decidable (Balanced text) :=
  decidable_of_iff (Nested (start text) ∧ endDepth (start text) = 0)
    ⟨fun ⟨nested, level⟩ => ⟨nested, level⟩, fun balanced => ⟨balanced.nested, balanced.level⟩⟩

section Nested

variable {back text : Text} {offset depth : Nat}

theorem nested_cons {byte : Byte} {rest : Text} (plain : byte.isQuote = false) :
    Nested ⟨back, byte :: rest, offset, depth⟩ ↔
      (byte = Byte.closeParen → depth ≠ 0) ∧
        Nested ⟨byte :: back, rest, offset + 1, depthAfter byte depth⟩ := by
  simp [Nested, code_cons _ _ _ _ plain, byte?]

/-- In more parentheses a text is read at greater depth. -/
theorem code_of_nested (nested : Nested ⟨back, text, offset, depth⟩) (outer : Nat) :
    endDepth ⟨back, text, offset, depth + outer⟩ = endDepth ⟨back, text, offset, depth⟩ + outer ∧
      ∀ place ∈ code ⟨back, text, offset, depth + outer⟩, outer ≤ place.depth := by
  induction back, text using lexeme_induction .standard generalizing offset depth with
  | nil back => simp [endDepth_nil, code_nil]
  | code back byte rest plain ih =>
      obtain ⟨closes, nested⟩ := (nested_cons plain).mp nested
      have after_eq : depthAfter byte (depth + outer) = depthAfter byte depth + outer := by
        unfold depthAfter
        split
        · omega
        · split
          · rename_i closing
            have positive := closes (by simpa using closing)
            omega
          · rfl
      obtain ⟨depth_eq, deep⟩ := ih nested
      rw [endDepth_cons _ _ _ _ plain, endDepth_cons _ _ _ _ plain, code_cons _ _ _ _ plain,
        after_eq, List.forall_mem_cons]
      exact ⟨depth_eq, Nat.le_add_left _ _, deep⟩
  | literal back mark literal rest quote closed ih =>
      rw [endDepth_literal _ _ _ _ _ quote closed, endDepth_literal _ _ _ _ _ quote closed,
        code_literal _ _ _ _ _ quote closed]
      refine ih ?_
      rwa [Nested, code_literal _ _ _ _ _ quote closed] at nested
  | unclosed back mark rest quote unclosed =>
      simp [endDepth, code_unclosed _ _ _ _ quote unclosed]

/-- One parenthesis more leaves at most one more open. -/
theorem endDepth_succ_le (back text : Text) (offset depth : Nat) :
    endDepth ⟨back, text, offset, depth + 1⟩ ≤ endDepth ⟨back, text, offset, depth⟩ + 1 := by
  induction back, text using lexeme_induction .standard generalizing offset depth with
  | nil back => simp [endDepth_nil]
  | code back byte rest plain ih =>
      rw [endDepth_cons _ _ _ _ plain, endDepth_cons _ _ _ _ plain]
      by_cases closing : byte = Byte.closeParen ∧ depth = 0
      · obtain ⟨rfl, rfl⟩ := closing
        exact Nat.le_succ _
      · have after_eq : depthAfter byte (depth + 1) = depthAfter byte depth + 1 := by
          unfold depthAfter
          split
          · omega
          · split
            · rename_i closes
              have positive : depth ≠ 0 := fun zero => closing ⟨by simpa using closes, zero⟩
              omega
            · rfl
        rw [after_eq]
        exact ih _ _
  | literal back mark literal rest quote closed ih =>
      rw [endDepth_literal _ _ _ _ _ quote closed, endDepth_literal _ _ _ _ _ quote closed]
      exact ih _ _
  | unclosed back mark rest quote unclosed =>
      simp [endDepth, code_unclosed _ _ _ _ quote unclosed]

/-- In parentheses no mark is left. -/
theorem marks_of_nested (nested : Nested ⟨back, text, offset, depth⟩) {outer : Nat}
    (inside : 0 < outer) : marks ⟨back, text, offset, depth + outer⟩ = [] := by
  refine List.eq_nil_iff_forall_not_mem.mpr fun mark member => ?_
  obtain ⟨place, place_mem, marked, -⟩ := mem_marks.mp member
  have deep := (code_of_nested nested outer).2 place place_mem
  have level := (Mark.countsAt_iff.mp (mark?_eq_some.mp marked)).1
  omega

end Nested

section Start

variable {text after : Text} (closed : Closed (start text))

include closed in
theorem nested_start_append (seam : Seam text.reverse after) :
    Nested (start (text ++ after)) ↔
      Nested (start text) ∧ Nested ⟨[], after, 0, endDepth (start text)⟩ := by
  refine forall_code_append 0 closed seam (fun site rest_ne _ => ?_) fun _ _ _ => Iff.rfl
  rw [byte?_extend rest_ne]
  rfl

end Start

end Site

end TenantScope
