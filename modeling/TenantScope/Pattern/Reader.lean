import TenantScope.Pattern.Brackets

/-!
# The written form of patterns

A written pattern has alternatives between bars, groups in parentheses, sets in brackets, a full
stop for any byte of a line, anchors, escapes, and repetition counts after the thing repeated.  A
text that is not a written pattern, or that writes too large a pattern, has no reading.
-/

namespace TenantScope

namespace Pattern

/-! ## Copies -/

/-- The pattern with other marks on its repetitions, so that their rounds are counted apart. -/
def relabel (shift : Nat) : Pattern → Pattern
  | before expected body => before expected (body.relabel shift)
  | group number body => group number (body.relabel shift)
  | followedBy first second => followedBy (first.relabel shift) (second.relabel shift)
  | either first second => either (first.relabel shift) (second.relabel shift)
  | optional mark reluctant body => optional (mark + shift) reluctant (body.relabel shift)
  | repeated mark reluctant once body => repeated (mark + shift) reluctant once (body.relabel shift)
  | pattern => pattern

/-- Copies of a pattern one after another, and then another pattern. -/
def copies (copy : Nat → Pattern) (last : Pattern) : (count : Nat) → Pattern
  | 0 => last
  | count + 1 => copies copy (followedBy (copy count) last) count

/-- Up to `count` copies of a pattern one after another, counted from `start`. -/
def optionalCopies (copy : Nat → Pattern) (mark : Nat) (reluctant : Bool) (start : Nat) :
    (count : Nat) → Pattern
  | 0 => nothing
  | count + 1 =>
      optional (mark + count) reluctant
        (followedBy (copy start) (optionalCopies copy mark reluctant (start + 1) count))

/-! ## Reading -/

/-- A pattern that has been read, and its weight, which is the number of steps that make it up. -/
structure Part where
  pattern : Pattern
  weight : Nat
  deriving DecidableEq, Repr

/-- How far a reading has come. -/
structure Reading where
  /-- What has still to be read. -/
  rest : Text
  /-- Number of groups begun; the whole pattern is one. -/
  groups : Nat
  /-- The groups that have not ended. -/
  openGroups : List Nat
  /-- Number of marks used for repetitions. -/
  marks : Nat
  /-- Weight of all that has been read, copies and what was copied included. -/
  weight : Nat
  deriving DecidableEq, Repr

/-- A step of a reading. -/
abbrev Reader :=
  StateT Reading Option

namespace Reader

/-- The greatest weight of a pattern. -/
def weightLimit : Nat :=
  100000

/-- Something of a weight has been read. -/
def weigh (weight : Nat) : Reader Unit := fun reading =>
  if reading.weight + weight ≤ weightLimit then
    some ((), { reading with weight := reading.weight + weight })
  else none

/-- A new mark for a repetition. -/
def newMark : Reader Nat := fun reading =>
  some (reading.marks, { reading with marks := reading.marks + 1 })

/-- What a function reads from the rest. -/
def through {α : Type} (read? : Text → Option (α × Text)) : Reader α := fun reading =>
  (read? reading.rest).map fun (value, rest) => (value, { reading with rest })

/-- Whether the rest begins with a text, which is passed over if it does. -/
def skip (wanted : Text) : Reader Bool := fun reading =>
  if wanted.isPrefixOf reading.rest then
    some (true, { reading with rest := reading.rest.drop wanted.length })
  else some (false, reading)

/-- The rest begins with a text, which is passed over. -/
def expect (wanted : Text) : Reader Unit := do
  if ← skip wanted then return () else failure

/-- A pattern of one step. -/
def single (pattern : Pattern) : Reader Part := do
  weigh 1
  return ⟨pattern, 1⟩

/-! ### Repetitions -/

/-- Least and greatest number of repetitions, read from just after the opening brace. -/
def bounds : Reader (Nat × Option Nat) := do
  let least ← through readNumber?
  if ← skip [Byte.comma] then
    if ← skip [Byte.closeBrace] then return (least, none)
    else
      let most ← through readNumber?
      expect [Byte.closeBrace]
      if most < least then failure else return (least, some most)
  else
    expect [Byte.closeBrace]
    return (least, some least)

/-- Copies of a part whose marks begin at a number, as many as bounds say. -/
def counted (part : Part) (firstMark : Nat) : Reader Part := do
  let (least, most?) ← bounds
  let reluctant ← skip [Byte.questionMark]
  let width := (← get).marks - firstMark
  let copy := fun index => part.pattern.relabel ((index + 1) * width)
  let further := most?.elim 1 (· - least)
  let weight := match most? with
    | none => (least + 1) * part.weight + 2
    | some most => least * part.weight + (most - least) * (part.weight + 1) + 2
  weigh weight
  let mark := firstMark + (least + further + 1) * width
  modify fun reading => { reading with marks := mark + further }
  let last := match most? with
    | none => repeated mark reluctant false (copy least)
    | some _ => optionalCopies copy mark reluctant least further
  return ⟨copies copy last least, weight⟩

/-- A part with one repetition written after it, if there is one. -/
def repetition? (part : Part) (firstMark : Nat) : Reader (Option Part) := do
  if ← skip [Byte.asterisk] then
    let reluctant ← skip [Byte.questionMark]
    weigh 1
    return some ⟨repeated (← newMark) reluctant false part.pattern, part.weight + 1⟩
  else if ← skip [Byte.plus] then
    let reluctant ← skip [Byte.questionMark]
    weigh 1
    return some ⟨repeated (← newMark) reluctant true part.pattern, part.weight + 1⟩
  else if ← skip [Byte.questionMark] then
    let reluctant ← skip [Byte.questionMark]
    weigh 2
    return some ⟨optional (← newMark) reluctant part.pattern, part.weight + 2⟩
  else if ← skip [Byte.openBrace] then
    return some (← counted part firstMark)
  else return none

/-- A part with all the repetitions written after it. -/
def repetitions (part : Part) (firstMark : Nat) : (fuel : Nat) → Reader Part
  | 0 => failure
  | fuel + 1 => do
      match ← repetition? part firstMark with
      | some part => repetitions part firstMark fuel
      | none => return part

/-! ### Terms -/

/-- Any byte of a line. -/
def anyByte : ByteSet :=
  ⟨[(Byte.lineFeed, Byte.lineFeed), (Byte.carriageReturn, Byte.carriageReturn)], true⟩

/-- What a group that has ended took. -/
def reference (number : Nat) : Reader Part := do
  let reading ← get
  if number < reading.groups && !reading.openGroups.contains number then single (again number)
  else failure

/-- A term that begins with a backslash. -/
def escape (fuel : Nat) : Reader Part := do
  let firstMark := (← get).marks
  match ← through (readEscape? false) with
  | .wordEdge expected => single (wordEdge expected)
  | .byte byte => repetitions (← single (oneOf (.single byte))) firstMark fuel
  | .oneOf ranges => repetitions (← single (oneOf ⟨ranges, false⟩)) firstMark fuel
  | .again number => repetitions (← reference number) firstMark fuel

/-- A byte that begins no term. -/
def endsTerms (byte : Byte) : Bool :=
  (Text.ascii "|)*+?\x7b").contains byte

mutual

/-- Alternatives between bars. -/
def alternatives : (fuel : Nat) → Reader Part
  | 0 => failure
  | fuel + 1 => do moreAlternatives fuel (← terms fuel)

/-- The alternatives after some that have been read. -/
def moreAlternatives : (fuel : Nat) → Part → Reader Part
  | 0, _ => failure
  | fuel + 1, first => do
      if ← skip [Byte.bar] then
        let second ← terms fuel
        weigh 2
        moreAlternatives fuel
          ⟨either first.pattern second.pattern, first.weight + second.weight + 2⟩
      else return first

/-- The terms of one alternative. -/
def terms : (fuel : Nat) → Reader Part
  | 0 => failure
  | fuel + 1 => do
      if (← get).rest.head?.all endsTerms then single nothing
      else
        let first ← term fuel
        let others ← terms fuel
        return ⟨followedBy first.pattern others.pattern, first.weight + others.weight⟩

/-- One term: an anchor, or something that may be repeated. -/
def term : (fuel : Nat) → Reader Part
  | 0 => failure
  | fuel + 1 => do
      let firstMark := (← get).marks
      if ← skip [Byte.caret] then single textStart
      else if ← skip [Byte.dollar] then single textEnd
      else if ← skip [Byte.backslash] then escape fuel
      else if ← skip [Byte.dot] then repetitions (← single (oneOf anyByte)) firstMark fuel
      else if ← skip [Byte.openBracket] then
        let set ← through readSet?
        repetitions (← single (oneOf set)) firstMark fuel
      else if ← skip (Text.ascii "(?=") then assertion fuel true
      else if ← skip (Text.ascii "(?!") then assertion fuel false
      else if ← skip (Text.ascii "(?:") then
        weigh 1
        let body ← alternatives fuel
        expect [Byte.closeParen]
        repetitions ⟨body.pattern, body.weight + 1⟩ firstMark fuel
      else if ← skip (Text.ascii "(?") then failure
      else if ← skip [Byte.openParen] then
        repetitions (← numbered fuel) firstMark fuel
      else
        let byte ← through fun text => text.head?.map fun byte => (byte, text.drop 1)
        repetitions (← single (oneOf (.single byte))) firstMark fuel

/-- An assertion on what follows, read from just after its mark. -/
def assertion : (fuel : Nat) → (expected : Bool) → Reader Part
  | 0, _ => failure
  | fuel + 1, expected => do
      let body ← alternatives fuel
      expect [Byte.closeParen]
      weigh 2
      return ⟨before expected body.pattern, body.weight + 2⟩

/-- A group with a number, read from just after its parenthesis. -/
def numbered : (fuel : Nat) → Reader Part
  | 0 => failure
  | fuel + 1 => do
      let number := (← get).groups
      modify fun reading =>
        { reading with groups := number + 1, openGroups := number :: reading.openGroups }
      weigh 1
      let body ← alternatives fuel
      expect [Byte.closeParen]
      modify fun reading => { reading with openGroups := reading.openGroups.erase number }
      weigh 1
      return ⟨group number body.pattern, body.weight + 2⟩

end

end Reader

/-- The pattern that a text writes. -/
def ofText? (text : Text) : Option Pattern := do
  -- The whole pattern weighs three more than its alternatives.
  let (part, reading) ← Reader.alternatives (4 * text.length + 4) ⟨text, 1, [0], 0, 3⟩
  if reading.rest.isEmpty then return part.pattern else none

end Pattern

end TenantScope
