import TenantScope.Proofs.Respacing

/-!
# Code fences

A fence is a run of three backticks, inside literals and outside of them alike.  Taking fences out
leaves none behind, since a blank stands where each one was, and a text without fences stays as it
is.  Where no mark is written twice, texts in a row have no fences but their own.
-/

namespace TenantScope

open Text Site Literal

/-- No code fence stands in the text. -/
def Unfenced (text : Text) : Prop :=
  ¬ Markup.fenceMark <:+: text

instance (text : Text) : Decidable (Unfenced text) :=
  inferInstanceAs (Decidable (¬ _))

namespace Unfenced

theorem of_isInfix {part text : Text} (unfenced : Unfenced text) (inside : part <:+: text) :
    Unfenced part :=
  fun fenced => unfenced (fenced.trans inside)

theorem of_not_mem {text : Text} (foreign : Byte.backtick ∉ text) : Unfenced text := fun fenced =>
  foreign (fenced.subset (by decide))

/-- A fence does not run over the place between two texts unless a backtick stands
on both sides of it. -/
theorem append_iff {text after : Text}
    (parted : text.getLast? = some Byte.backtick → after.head? ≠ some Byte.backtick) :
    Unfenced (text ++ after) ↔ Unfenced text ∧ Unfenced after := by
  rw [Unfenced, List.infix_append_iff, not_or, not_or, Unfenced, Unfenced]
  refine and_congr_right fun unfenced => and_iff_left_of_imp fun after_unfenced => ?_
  rintro ⟨front, back, mark_eq, suffix, begins⟩
  have ticks : ∀ byte ∈ front ++ back, byte = Byte.backtick := by
    rw [← mark_eq]
    exact fun byte member => List.eq_of_mem_replicate member
  rcases List.eq_nil_or_concat front with rfl | ⟨front, last, rfl⟩
  · exact after_unfenced (mark_eq ▸ begins.isInfix)
  · cases back with
    | nil => exact unfenced (by simpa [mark_eq] using suffix.isInfix)
    | cons first back =>
        obtain rfl := ticks last (by simp)
        obtain rfl := ticks first (by simp)
        obtain ⟨lead, rfl⟩ := suffix
        obtain ⟨rest, rfl⟩ := begins
        exact parted (by simp) (by simp)

theorem append_of_seam {text after : Text} (seam : Seam text.reverse after) :
    Unfenced (text ++ after) ↔ Unfenced text ∧ Unfenced after :=
  append_iff fun last first => seam.mark (by simp [first, Byte.isQuote]) (by simp [last, first])

end Unfenced

namespace Markup

/-- Where no fence stands in a text, none begins. -/
theorem fence?_eq_none {text : Text} (unfenced : Unfenced text) : fence? text = none := by
  rw [fence?, if_neg]
  exact fun begins => unfenced (List.isPrefixOf_iff_prefix.mp begins).isInfix

/-- Bytes that are visited one by one are the text. -/
theorem flatMap_everywhere (back rest : Text) (offset depth : Nat) :
    (everywhere ⟨back, rest, offset, depth⟩).flatMap (fun site => site.rest.take 1) = rest := by
  induction rest generalizing back offset depth with
  | nil => rfl
  | cons byte rest ih =>
      have step := ih (byte :: back) (offset + 1) (depthAfter byte depth)
      simp only [everywhere, tour] at step ⊢
      rw [walk, List.flatMap_cons, Nat.sub_self, step]
      rfl

/-- A text without fences stays as it is. -/
theorem unfence_of_unfenced {text : Text} (unfenced : Unfenced text) : unfence text = text := by
  have none_begins : ∀ site ∈ (start text).everywhere, fence? site.rest = none :=
    fun site member => by
    have whole := back_rest_of_mem_walk member
    exact fence?_eq_none (unfenced.of_isInfix ⟨site.back.reverse, [], by simpa [start] using whole⟩)
  have single :
      (start text).tour (fun site => (fence? site.rest).getD 1) = (start text).everywhere :=
    (walk_congr fun site member => by rw [none_begins site member]; rfl).symm
  have kept : ∀ site ∈ (start text).everywhere,
      (if (fence? site.rest).isSome then [Byte.blank] else site.rest.take 1) = site.rest.take 1 :=
    fun site member => by rw [none_begins site member]; rfl
  rw [unfence, single, List.flatMap_congr kept]
  exact flatMap_everywhere [] text 0 0

/-- The text from a place on with every fence replaced by a blank, once the next
`skip` bytes are passed. -/
private def unfenceFrom (back : Text) (offset depth skip : Nat) (rest : Text) : Text :=
  (walk (fun site => (fence? site.rest).getD 1) back offset depth skip rest).flatMap fun site =>
    if (fence? site.rest).isSome then [Byte.blank] else site.rest.take 1

/-- Either a blank comes next, or the next byte of the text. -/
private theorem unfenceFrom_cons (back rest : Text) (offset depth : Nat) (byte : Byte) :
    (∃ skip, unfenceFrom back offset depth 0 (byte :: rest) =
        Byte.blank :: unfenceFrom (byte :: back) (offset + 1) (depthAfter byte depth) skip rest) ∨
      ¬ fenceMark <+: byte :: rest ∧ unfenceFrom back offset depth 0 (byte :: rest) =
        byte :: unfenceFrom (byte :: back) (offset + 1) (depthAfter byte depth) 0 rest := by
  have step (back : Text) (skip : Nat) : unfenceFrom back offset depth 0 (byte :: rest) =
      (if (fence? (byte :: rest)).isSome then [Byte.blank] else [byte]) ++
        unfenceFrom (byte :: back) (offset + 1) (depthAfter byte depth)
          ((fence? (byte :: rest)).getD 1 - 1) rest :=
    rfl
  cases found : fence? (byte :: rest) with
  | some length => exact .inl ⟨length - 1, by rw [step back 0, found]; rfl⟩
  | none =>
      refine .inr ⟨fun begins => ?_, by rw [step back 0, found]; rfl⟩
      rw [fence?, if_pos (List.isPrefixOf_iff_prefix.mpr begins)] at found
      by_cases named : isLanguage (((byte :: rest).drop fenceMark.length).takeWhile Byte.isAlpha)
          (((byte :: rest).drop fenceMark.length).dropWhile Byte.isAlpha) = true
          <;> simp [named] at found

/-- A run of backticks at the head of what is left was at the head of the text. -/
private theorem prefix_of_prefix_unfenceFrom {ticks : Text}
    (all : ∀ byte ∈ ticks, byte = Byte.backtick) {back rest : Text} {offset depth : Nat}
    (begins : ticks <+: unfenceFrom back offset depth 0 rest) :
    ticks <+: rest := by
  induction ticks generalizing back rest offset depth with
  | nil => exact List.nil_prefix
  | cons tick ticks ih =>
      obtain ⟨same_tick, all⟩ := List.forall_mem_cons.mp all
      cases rest with
      | nil => exact begins
      | cons byte rest =>
          rcases unfenceFrom_cons back rest offset depth byte with ⟨skip, blank⟩ | ⟨-, same⟩
          · rw [blank, List.cons_prefix_cons, same_tick] at begins
            exact absurd begins.1 (by decide)
          · rw [same, List.cons_prefix_cons] at begins
            exact List.cons_prefix_cons.mpr ⟨begins.1, ih all begins.2⟩

private theorem unfenced_unfenceFrom (back rest : Text) (offset depth skip : Nat) :
    Unfenced (unfenceFrom back offset depth skip rest) := by
  induction rest generalizing back offset depth skip with
  | nil => cases skip <;> exact Unfenced.of_not_mem List.not_mem_nil
  | cons byte rest ih =>
      cases skip with
      | succ skip => exact ih _ _ _ _
      | zero =>
          intro fenced
          rcases unfenceFrom_cons back rest offset depth byte with ⟨skip, blank⟩ | ⟨unmarked, same⟩
          · rw [blank, List.infix_cons_iff] at fenced
            rcases fenced with begins | later
            · exact absurd (List.cons_prefix_cons.mp begins).1 (by decide)
            · exact ih _ _ _ _ later
          · rw [same, List.infix_cons_iff, ← same] at fenced
            rcases fenced with begins | later
            · exact unmarked
                (prefix_of_prefix_unfenceFrom (fun byte => List.eq_of_mem_replicate) begins)
            · exact ih _ _ _ _ later

/-- A text whose fences are taken out has none. -/
theorem unfenced_unfence (text : Text) : Unfenced (unfence text) :=
  unfenced_unfenceFrom [] text 0 0 0

end Markup

/-! ## Fences and tokens -/

namespace Token

/-- The tokens of a text have no fences when it has none. -/
theorem unfenced_spell {previous : Option Token} {tokens : List Token}
    (lexed : Lexed previous tokens) :
    Unfenced (spell tokens) ↔ ∀ token ∈ tokens, Unfenced token.bytes := by
  induction tokens generalizing previous with
  | nil => simpa using Unfenced.of_not_mem List.not_mem_nil
  | cons token tokens ih =>
      rw [spell_cons, List.forall_mem_cons, ← ih lexed.2, Unfenced.append_iff]
      intro last
      cases token with
      | word written =>
          have identifier := lexed.1.2.1.identifiers _ (List.mem_of_getLast? last)
          exact absurd identifier (by decide)
      | byte plain =>
          obtain rfl : plain = Byte.backtick := by simpa [bytes] using last
          exact absurd lexed.1.2.2 (by decide)
      | literal mark content =>
          obtain ⟨quote, -, closed⟩ := lexed.1.2
          have ends := getLast?_of_closing? closed
          obtain rfl : mark = Byte.backtick := by
            obtain ⟨front, rfl⟩ := List.getLast?_eq_some_iff.mp ends
            rw [bytes, ← List.cons_append, List.getLast?_concat] at last
            exact Option.some.inj last
          exact head?_spell_of_literal quote lexed.2
      | remnant mark content =>
          obtain rfl := eq_nil_of_remnant lexed
          simp

theorem linked_of_forall {kind : Token → Prop} {tokens : List Token} :
    ∀ previous, Linked (fun _ token => kind token) previous tokens ↔
      ∀ token ∈ tokens, kind token := by
  induction tokens with
  | nil => simp [Linked]
  | cons token tokens ih =>
      intro previous
      rw [Linked, ih, List.forall_mem_cons]

theorem spaceable_unfenced : Spaceable fun _ token => Unfenced token.bytes where
  blank _ := Unfenced.of_not_mem (by decide)
  after_gap _ unfenced := ⟨unfenced, unfenced⟩
  semicolon _ := Unfenced.of_not_mem (by decide)
  trimmed := by
    intro previous mark content unfenced
    have split : (remnant mark content).bytes =
        (remnant mark (dropRightWhile trails content)).bytes ++
          (content.reverse.takeWhile trails).reverse := by
      conv => lhs; rw [bytes, ← dropRightWhile_append_takeWhile trails content]
      rfl
    have kept := unfenced.of_isInfix (split ▸ (List.prefix_append _ _).isInfix)
    show Unfenced ((remnant mark (dropRightWhile trails content)).bytes ++ [Byte.semicolon])
    exact (Unfenced.append_iff fun _ => by decide).mpr ⟨kept, Unfenced.of_not_mem (by decide)⟩

/-- In normal form a text has no fences that it did not have. -/
theorem unfenced_normal {tokens : List Token} (lexed : Lexed none tokens)
    (unfenced : ∀ token ∈ tokens, Unfenced token.bytes) : Unfenced (spell tokens).normalize := by
  rw [normalize_spell lexed, unfenced_spell (lexed_normal lexed), ← linked_of_forall none]
  exact linked_normal spaceable_unfenced ((linked_of_forall none).mpr unfenced)

end Token

theorem unfenced_normalize {text : Text} (unfenced : Unfenced text) : Unfenced text.normalize := by
  obtain ⟨tokens, lexed, rfl⟩ := Token.exists_lexed text
  exact Token.unfenced_normal lexed ((Token.unfenced_spell lexed).mp unfenced)

end TenantScope
