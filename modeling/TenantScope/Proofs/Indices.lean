import TenantScope.Spacing
import TenantScope.Statement
import TenantScope.Proofs.Lexemes

/-!
# Reading by index

The stages of the rewriting go through a text by index: they look at single bytes, look back,
subtract offsets and cut pieces out.  Here each of these gives nothing outside the text, and so does
a loop that does not come to its end.  A loop whose every step keeps an invariant and gets nearer to
the end is left with the result that the invariant tells.
-/

namespace TenantScope

open Text

namespace Indexed

/-! ## Loops -/

/-- What a step of a loop comes to. -/
inductive Step (State Result : Type)
  /-- The loop goes on from another state. -/
  | next (state : State)
  /-- The loop is left with a result. -/
  | done (result : Result)

section Loops

variable {State Result : Type}

/-- A loop of fewer than `limit` steps, any of which may fault. -/
def loop (step : State → Option (Step State Result)) : (limit : Nat) → State → Option Result
  | 0, _ => none
  | limit + 1, state =>
      match step state with
      | none => none
      | some (.next state) => loop step limit state
      | some (.done result) => some result

/-- What a step comes to where an invariant holds for a result: it leaves the loop with the result,
or gets nearer to the end and keeps the invariant. -/
inductive Progress (step : State → Option (Step State Result)) (Holds : State → Result → Prop)
    (left : State → Nat) (state : State) (result : Result) : Prop
  | done (last : step state = some (.done result))
  | next (other : State) (going : step state = some (.next other)) (kept : Holds other result)
      (nearer : left other < left state)

theorem loop_eq_some {step : State → Option (Step State Result)} (Holds : State → Result → Prop)
    (left : State → Nat)
    (advances : ∀ state result, Holds state result → Progress step Holds left state result)
    {limit : Nat} {state : State} {result : Result} (holds : Holds state result)
    (enough : left state < limit) : loop step limit state = some result := by
  induction limit generalizing state with
  | zero => omega
  | succ limit ih =>
      cases advances state result holds with
      | done last => rw [loop, last]
      | next other going kept nearer =>
          rw [loop, going]
          exact ih kept (by omega)

/-- A loop that is left with the answer of its state, if every step gets nearer to the end
and keeps the answer. -/
theorem loop_eq_answer {step : State → Option (Step State Result)} (answer : State → Result)
    (left : State → Nat)
    (advances : ∀ state,
      Progress step (fun state result => result = answer state) left state (answer state))
    {limit : Nat} {state : State} (enough : left state < limit) :
    loop step limit state = some (answer state) := by
  refine loop_eq_some (fun state result => result = answer state) left (fun state _ holds => ?_) rfl
    enough
  subst holds
  exact advances state

end Loops

/-! ## Single accesses -/

/-- The byte at an index of a text. -/
def byteAt? (text : Text) (index : Nat) : Option Byte :=
  text[index]?

/-- The difference of two offsets, which is never below zero. -/
def minus? (offset subtrahend : Nat) : Option Nat :=
  if subtrahend ≤ offset then some (offset - subtrahend) else none

/-- The `length` bytes of a text from an index on. -/
def cut? (text : Text) (index length : Nat) : Option Text :=
  if index + length ≤ text.length then some ((text.drop index).take length) else none

/-- The bytes of a text from an index to its end. -/
def from? (text : Text) (index : Nat) : Option Text :=
  if index ≤ text.length then some (text.drop index) else none

variable {text : Text}

@[simp]
theorem minus?_of_le {offset subtrahend : Nat} (fits : subtrahend ≤ offset) :
    minus? offset subtrahend = some (offset - subtrahend) :=
  if_pos fits

theorem cut?_of_le {index length : Nat} (fits : index + length ≤ text.length) :
    cut? text index length = some ((text.drop index).take length) :=
  if_pos fits

theorem cut?_zero {length : Nat} (fits : length ≤ text.length) :
    cut? text 0 length = some (text.take length) := by
  rw [cut?_of_le (by omega), List.drop_zero]

theorem cut?_slice {start stop : Nat} (ordered : start ≤ stop) (fits : stop ≤ text.length) :
    cut? text start (stop - start) = some (Statement.slice text start stop) :=
  cut?_of_le (by omega)

theorem from?_of_le {index : Nat} (fits : index ≤ text.length) :
    from? text index = some (text.drop index) :=
  if_pos fits

/-- A byte in a text, and the text from it on. -/
theorem exists_byteAt {index : Nat} (inside : index < text.length) :
    ∃ byte, byteAt? text index = some byte ∧ text.drop index = byte :: text.drop (index + 1) :=
  ⟨text[index], List.getElem?_eq_getElem inside, List.drop_eq_getElem_cons inside⟩

/-- The byte before a place in a text, and the text before it. -/
theorem exists_byteBefore {index : Nat} (positive : 0 < index) (within : index ≤ text.length) :
    ∃ byte, byteAt? text (index - 1) = some byte ∧
      text.take index = text.take (index - 1) ++ [byte] := by
  have inside : index - 1 < text.length := by omega
  refine ⟨text[index - 1], List.getElem?_eq_getElem inside, ?_⟩
  rw [← List.take_succ_eq_append_getElem inside, Nat.sub_add_cancel positive]

/-! ## Runs of bytes -/

/-- A step over a byte that passes a test. -/
def skipStep (text : Text) (holds : Byte → Bool) (stop index : Nat) : Option (Step Nat Nat) :=
  if index < stop then do
    let byte ← byteAt? text index
    if holds byte then some (.next (index + 1)) else some (.done index)
  else some (.done index)

/-- Where the bytes from an index on first fail a test, or `stop`. -/
def skip? (text : Text) (holds : Byte → Bool) (stop index : Nat) : Option Nat :=
  loop (skipStep text holds stop) (text.length + 1) index

theorem skip?_eq (holds : Byte → Bool) {stop : Nat} (within : stop ≤ text.length) (index : Nat) :
    skip? text holds stop index =
      some (index + ((Statement.slice text index stop).takeWhile holds).length) := by
  refine loop_eq_answer
    (fun index => index + ((Statement.slice text index stop).takeWhile holds).length)
    (fun index => stop - index) (fun index => ?_) (by omega)
  by_cases inside : index < stop
  · obtain ⟨byte, byte_eq, drop_eq⟩ := exists_byteAt (show index < text.length by omega)
    have room : stop - index = (stop - (index + 1)) + 1 := by omega
    have slice_eq :
        Statement.slice text index stop = byte :: Statement.slice text (index + 1) stop := by
      rw [Statement.slice, drop_eq, room, List.take_succ_cons, Statement.slice]
    cases holds_byte : holds byte with
    | true =>
        refine .next (index + 1) (by simp [skipStep, inside, byte_eq, holds_byte]) ?_ (by omega)
        rw [slice_eq, List.takeWhile_cons_of_pos holds_byte, List.length_cons]
        omega
    | false => exact .done (by simp [skipStep, inside, byte_eq, slice_eq, holds_byte])
  · have slice_eq : Statement.slice text index stop = [] := by
      rw [Statement.slice, Nat.sub_eq_zero_of_le (by omega), List.take_zero]
    exact .done (by simp [skipStep, inside, slice_eq])

theorem slice_length (text : Text) (index : Nat) :
    Statement.slice text index text.length = text.drop index := by
  rw [Statement.slice, List.take_of_length_le (by simp)]

theorem skip?_length (holds : Byte → Bool) (text : Text) (index : Nat) :
    skip? text holds text.length index =
      some (index + ((text.drop index).takeWhile holds).length) := by
  rw [skip?_eq _ (Nat.le_refl _), slice_length]

theorem takeWhile_take (holds : Byte → Bool) (count : Nat) (text : Text) :
    (text.take count).takeWhile holds = (text.takeWhile holds).take count := by
  induction text generalizing count with
  | nil => simp
  | cons byte text ih =>
      cases count with
      | zero => rfl
      | succ count =>
          rw [List.take_succ_cons, List.takeWhile_cons, List.takeWhile_cons]
          split
          · rw [ih, List.take_succ_cons]
          · rfl

theorem drop_length_takeWhile (holds : Byte → Bool) (text : Text) :
    text.drop (text.takeWhile holds).length = text.dropWhile holds := by
  conv => lhs; arg 2; rw [← List.takeWhile_append_dropWhile (p := holds) (l := text)]
  exact List.drop_left

/-- The bytes between two offsets, the last one first. -/
def backFrom (text : Text) (start index : Nat) : Text :=
  (Statement.slice text start index).reverse

theorem backFrom_zero (text : Text) (index : Nat) :
    backFrom text 0 index = (text.take index).reverse := by
  rw [backFrom, Statement.slice, List.drop_zero, Nat.sub_zero]

theorem backFrom_of_le {start index : Nat} (reached : index ≤ start) :
    backFrom text start index = [] := by
  rw [backFrom, Statement.slice, Nat.sub_eq_zero_of_le reached, List.take_zero, List.reverse_nil]

theorem length_backFrom (start : Nat) {index : Nat} (within : index ≤ text.length) :
    (backFrom text start index).length = index - start := by
  rw [backFrom, List.length_reverse, Statement.length_slice within]

theorem backFrom_succ {byte : Byte} {start index : Nat} (behind : start ≤ index)
    (here : byteAt? text index = some byte) :
    backFrom text start (index + 1) = byte :: backFrom text start index := by
  obtain ⟨inside, byte_eq⟩ := List.getElem?_eq_some_iff.mp here
  have start_le : start ≤ (text.take index).length := by
    rw [List.length_take]
    omega
  rw [backFrom, backFrom, Statement.slice, Statement.slice, ← List.drop_take, ← List.drop_take,
    List.take_succ_eq_append_getElem inside, byte_eq, List.drop_append_of_le_length start_le,
    List.reverse_append]
  rfl

/-- A step back over a byte that passes a test. -/
def skipBackStep (text : Text) (holds : Byte → Bool) (start index : Nat) : Option (Step Nat Nat) :=
  if start < index then do
    let before ← minus? index 1
    let byte ← byteAt? text before
    if holds byte then some (.next before) else some (.done index)
  else some (.done index)

/-- Behind which byte, back from an index, a test first fails, or `start`. -/
def skipBack? (text : Text) (holds : Byte → Bool) (start index : Nat) : Option Nat :=
  loop (skipBackStep text holds start) (text.length + 1) index

theorem skipBack?_eq (holds : Byte → Bool) (start : Nat) {index : Nat}
    (within : index ≤ text.length) :
    skipBack? text holds start index =
      some (index - ((backFrom text start index).takeWhile holds).length) := by
  refine loop_eq_some (fun index result => index ≤ text.length ∧
    result = index - ((backFrom text start index).takeWhile holds).length)
    (fun index => index) ?_ ⟨within, rfl⟩ (by omega)
  rintro index _ ⟨within, rfl⟩
  by_cases behind : start < index
  · obtain ⟨index, rfl⟩ := Nat.exists_eq_add_of_lt (show 0 < index by omega)
    simp only [Nat.zero_add] at behind within ⊢
    obtain ⟨byte, byte_eq, -⟩ := exists_byteAt (show index < text.length from within)
    have back_eq := backFrom_succ (show start ≤ index by omega) byte_eq
    cases holds_byte : holds byte with
    | true =>
        refine .next index (by simp [skipBackStep, behind, byte_eq, holds_byte]) ⟨by omega, ?_⟩
          (by omega)
        rw [back_eq, List.takeWhile_cons_of_pos holds_byte, List.length_cons]
        omega
    | false => exact .done (by simp [skipBackStep, behind, byte_eq, back_eq, holds_byte])
  · exact .done (by simp [skipBackStep, behind, backFrom_of_le (not_lt.mp behind)])

/-- A text without the white space at its end. -/
def trimRight? (text : Text) : Option Text := do
  let stop ← skipBack? text Byte.isSpace 0 text.length
  cut? text 0 stop

theorem skipBack?_length (holds : Byte → Bool) (text : Text) :
    skipBack? text holds 0 text.length = some (dropRightWhile holds text).length := by
  have whole := congrArg List.length (dropRightWhile_append_takeWhile holds text)
  rw [List.length_append, List.length_reverse] at whole
  rw [skipBack?_eq holds 0 (Nat.le_refl _), backFrom_zero, List.take_length]
  congr 1
  omega

theorem take_length_dropRightWhile (holds : Byte → Bool) (text : Text) :
    text.take (dropRightWhile holds text).length = dropRightWhile holds text := by
  conv => lhs; arg 2; rw [← dropRightWhile_append_takeWhile holds text]
  exact List.take_left

theorem trimRight?_eq (text : Text) : trimRight? text = some (trimRight text) := by
  have fits := length_dropRightWhile_le Byte.isSpace text
  rw [trimRight?, skipBack?_length, Option.bind_eq_bind, Option.bind_some, cut?_zero fits,
    take_length_dropRightWhile, trimRight]

/-- A text without the white space at either end. -/
def trim? (text : Text) : Option Text := do
  let first ← skip? text Byte.isSpace text.length 0
  if first = text.length then some []
  else do
    let last ← skipBack? text Byte.isSpace 0 text.length
    let length ← minus? last first
    cut? text first length

theorem trim?_eq (text : Text) : trim? text = some text.trim := by
  obtain ⟨lead, trail, lead_blank, trail_blank, split⟩ := exists_trim_append text
  have visible := @head?_trim text
  have last_visible := @getLast?_trim text
  rw [trim?, skip?_length, List.drop_zero, Option.bind_eq_bind, Option.bind_some, Nat.zero_add]
  generalize text.trim = trimmed at *
  subst split
  cases trimmed with
  | nil =>
      have blank : ∀ byte ∈ lead ++ ([] ++ trail), byte.isSpace = true := by
        simpa [or_imp, forall_and] using ⟨lead_blank, trail_blank⟩
      rw [if_pos (congrArg List.length (List.takeWhile_eq_self_iff.mpr blank))]
  | cons first rest =>
      have first_eq :
          ((lead ++ (first :: rest ++ trail)).takeWhile Byte.isSpace).length = lead.length := by
        rw [List.takeWhile_append_of_pos lead_blank, List.cons_append,
          List.takeWhile_cons_of_neg (by simp [visible first rfl]), List.append_nil]
      have last_eq : trimRight (lead ++ (first :: rest ++ trail)) = lead ++ first :: rest := by
        rw [← List.append_assoc, trimRight_append_blank trail_blank, trimRight_of_visible]
        rwa [List.getLast?_append_of_ne_nil _ (by simp)]
      have apart : lead.length ≠ (lead ++ (first :: rest ++ trail)).length := by
        simp only [List.length_append, List.length_cons]
        omega
      simp only [first_eq, if_neg apart, skipBack?_length, Option.bind_some]
      rw [show dropRightWhile Byte.isSpace _ = _ from last_eq, minus?_of_le (by simp),
        Option.bind_some, cut?_of_le (by simp)]
      simp

/-- The beginning of a text for the records. -/
def excerpt? (limit : Nat) (text : Text) : Option Text := do
  let trimmed ← trim? text
  some (Text.excerpt limit trimmed)

theorem joinAfter_append_gaps {gaps : List Fragment} (blank : ∀ fragment ∈ gaps, fragment = .gap)
    (pending : Bool) (fragments : List Fragment) :
    Fragment.joinAfter pending (fragments ++ gaps) = Fragment.joinAfter pending fragments := by
  induction fragments generalizing pending with
  | nil =>
      induction gaps generalizing pending with
      | nil => rfl
      | cons first gaps ih =>
          rw [List.forall_mem_cons] at blank
          rw [List.nil_append, blank.1, Fragment.joinAfter]
          exact ih blank.2 true
  | cons fragment fragments ih =>
      cases fragment with
      | kept bytes => simp only [List.cons_append, Fragment.joinAfter, ih]
      | gap => simp only [List.cons_append, Fragment.joinAfter, ih]

theorem join_gaps_append {gaps : List Fragment} (blank : ∀ fragment ∈ gaps, fragment = .gap)
    (fragments : List Fragment) : Fragment.join (gaps ++ fragments) = Fragment.join fragments := by
  induction gaps with
  | nil => rfl
  | cons first gaps ih =>
      rw [List.forall_mem_cons] at blank
      rw [List.cons_append, blank.1, Fragment.join, ih blank.2]

theorem squeeze_trim (text : Text) : Text.squeeze text.trim = Text.squeeze text := by
  have gaps {blanks : Text} (blank : ∀ byte ∈ blanks, byte.isSpace = true) :
      ∀ fragment ∈ blanks.map Fragment.ofByte, fragment = .gap := by
    intro fragment member
    obtain ⟨byte, byte_mem, rfl⟩ := List.mem_map.mp member
    simp [Fragment.ofByte, blank byte byte_mem]
  obtain ⟨lead, trail, lead_blank, trail_blank, split⟩ := exists_trim_append text
  have visible := @head?_trim text
  generalize text.trim = trimmed at *
  subst split
  rw [Text.squeeze, Text.squeeze, List.map_append, join_gaps_append (gaps lead_blank),
    List.map_append]
  cases trimmed with
  | nil =>
      rw [List.map_nil, List.nil_append, ← List.append_nil (trail.map Fragment.ofByte),
        join_gaps_append (gaps trail_blank)]
  | cons first rest =>
      have kept : Fragment.ofByte first = .kept [first] := by
        simp [Fragment.ofByte, visible first rfl]
      rw [List.map_cons, kept, List.cons_append, Fragment.join, Fragment.join,
        joinAfter_append_gaps (gaps trail_blank)]

theorem excerpt?_eq (limit : Nat) (text : Text) :
    excerpt? limit text = some (Text.excerpt limit text) := by
  rw [excerpt?, trim?_eq, Option.bind_eq_bind, Option.bind_some, Text.excerpt, Text.excerpt,
    squeeze_trim]

end Indexed

/-! ## Places by index -/

namespace Site

/-- The place `offset` bytes into a text, with the given number of open parentheses. -/
def placed (text : Text) (depth offset : Nat) : Site where
  back := (text.take offset).reverse
  rest := text.drop offset
  offset := offset
  depth := depth

variable {text : Text} {depth offset : Nat}

theorem placed_zero (text : Text) (offset : Nat) : placed text 0 offset = atOffset text offset :=
  rfl

@[simp]
theorem offset_placed : (placed text depth offset).offset = offset :=
  rfl

@[simp]
theorem depth_placed : (placed text depth offset).depth = depth :=
  rfl

@[simp]
theorem rest_placed : (placed text depth offset).rest = text.drop offset :=
  rfl

@[simp]
theorem byte?_placed : (placed text depth offset).byte? = Indexed.byteAt? text offset := by
  rw [byte?, rest_placed, List.head?_drop, Indexed.byteAt?]

theorem previous?_placed_zero : (placed text depth 0).previous? = none :=
  rfl

theorem previous?_placed (depth : Nat) (positive : 0 < offset) (within : offset ≤ text.length) :
    (placed text depth offset).previous? = Indexed.byteAt? text (offset - 1) := by
  obtain ⟨byte, byte_eq, take_eq⟩ := Indexed.exists_byteBefore positive within
  simp [previous?, placed, byte_eq, take_eq]

theorem tour_placed_end (width : Site → Nat) (outside : text.length ≤ offset) :
    (placed text depth offset).tour width = [] := by
  rw [tour, rest_placed, List.drop_of_length_le outside, walk]

/-- A tour goes on behind the unit at the place. -/
theorem tour_placed (width : Site → Nat) {byte : Byte}
    (here : Indexed.byteAt? text offset = some byte) :
    (placed text depth offset).tour width = placed text depth offset ::
      (placed text (depthAfter byte depth)
        (offset + 1 + (width (placed text depth offset) - 1))).tour width := by
  obtain ⟨inside, byte_eq⟩ := List.getElem?_eq_some_iff.mp here
  have drop_eq := List.drop_eq_getElem_cons inside
  have take_eq : byte :: (text.take offset).reverse = (text.take (offset + 1)).reverse := by
    rw [List.take_succ_eq_append_getElem inside, byte_eq, List.reverse_append]
    rfl
  rw [byte_eq] at drop_eq
  have site_eq : placed text depth offset =
      ⟨(text.take offset).reverse, byte :: text.drop (offset + 1), offset, depth⟩ := by
    rw [placed, drop_eq]
  conv => lhs; rw [tour]
  simp only [site_eq, walk]
  congr 1
  rw [take_eq, walk_skip, List.drop_drop, tour]
  generalize width _ - 1 = skip
  by_cases room : offset + 1 + skip ≤ text.length
  · have length_eq : min skip (text.drop (offset + 1)).length = skip := by
      rw [List.length_drop]
      omega
    rw [length_eq, ← List.reverse_append, ← List.take_add]
    rfl
  · have nothing : text.drop (offset + 1 + skip) = [] := List.drop_of_length_le (by omega)
    rw [rest_placed, nothing, walk, walk]

theorem takeWhile_tour_placed (width : Site → Nat) {stop : Nat} (reached : stop ≤ offset) :
    ((placed text depth offset).tour width).takeWhile (·.offset < stop) = [] := by
  rw [List.takeWhile_eq_nil_iff]
  intro nonempty
  have behind := le_offset_of_mem_walk (List.getElem_mem nonempty)
  simp only [offset_placed] at behind
  simpa using reached.trans behind

end Site

end TenantScope
