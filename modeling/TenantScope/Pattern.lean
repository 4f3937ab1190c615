import TenantScope.Site

/-!
# Patterns

Patterns of bytes that are searched for in a statement without regard to case.  A search tries the
ways to go on in an order: the first of two alternatives before the second one, and one more round
of a repetition before the end of it, or after it where the repetition is reluctant.  Where a way
fails, the search comes back and tries the next one.
-/

namespace TenantScope

/-- A set of bytes in which the two cases of a letter are one. -/
structure ByteSet where
  /-- Ranges of bytes, both ends included. -/
  ranges : List (Byte × Byte)
  /-- The set holds the bytes outside the ranges. -/
  negated : Bool
  deriving DecidableEq, Repr

namespace ByteSet

def single (byte : Byte) : ByteSet :=
  ⟨[(byte, byte)], false⟩

def within (range : Byte × Byte) (byte : Byte) : Bool :=
  range.1 ≤ byte && byte ≤ range.2

/-- The byte, in one case or the other, is in the set. -/
def accepts (set : ByteSet) (byte : Byte) : Bool :=
  (set.ranges.any fun range => within range byte.toLower || within range byte.toUpper) !=
    set.negated

end ByteSet

/-- A pattern of bytes. -/
inductive Pattern
  /-- No byte at all. -/
  | nothing
  /-- One byte of a set. -/
  | oneOf (set : ByteSet)
  /-- The beginning of the text. -/
  | textStart
  /-- The end of the text. -/
  | textEnd
  /-- A place between a byte of a word and one that is none; or a place that is not such. -/
  | wordEdge (expected : Bool)
  /-- What a group took last, once more. -/
  | again (group : Nat)
  /-- A place before an occurrence of a pattern; or a place that is not such. -/
  | before (expected : Bool) (body : Pattern)
  /-- A pattern as the group of a number. -/
  | group (number : Nat) (body : Pattern)
  /-- One pattern and then another. -/
  | followedBy (first second : Pattern)
  /-- One of two patterns. -/
  | either (first second : Pattern)
  /-- A pattern or nothing. -/
  | optional (mark : Nat) (reluctant : Bool) (body : Pattern)
  /-- A pattern any number of times, or at least once. -/
  | repeated (mark : Nat) (reluctant once : Bool) (body : Pattern)
  deriving DecidableEq, Repr

namespace Pattern

/-! ## Searches -/

/-- What the groups of a pattern took: the offsets at which it begins and ends. -/
abbrev Groups :=
  Nat → Option (Nat × Nat)

/-- A table with another value for one number. -/
def assign {α : Type} (table : Nat → α) (number : Nat) (value : α) : Nat → α :=
  fun other => if other = number then value else table other

/-- How far a search has come. -/
structure Progress where
  site : Site
  groups : Groups
  /-- Where the last round of a repetition began, and how many rounds in a row began there. -/
  rounds : Nat → Nat × Nat

/-- What comes of a search. -/
inductive Ending
  /-- The pattern occurs; its groups took this. -/
  | found (groups : Groups)
  /-- The search comes back; what groups took in the places before which it looked stays with
  them. -/
  | failed (groups : Groups)

/-- The search ends here, and the pattern occurs. -/
def Progress.finish (progress : Progress) : Ending :=
  .found progress.groups

/-- Whether the pattern occurs. -/
def Ending.isFound : Ending → Bool
  | found _ => true
  | failed _ => false

/-- Another way to go on after a failure. -/
def Ending.orElse (ending : Ending) (other : Groups → Ending) : Ending :=
  match ending with
  | found groups => found groups
  | failed groups => other groups

/-- Where a search began, or the search for what follows a place. -/
structure Frame where
  /-- Offset of the first place. -/
  offset : Nat
  /-- The bytes before the first place count. -/
  seesBack : Bool

/-- The place is the first one, with no text before it. -/
def Frame.beginsAt (frame : Frame) (site : Site) : Bool :=
  site.offset == frame.offset && !frame.seesBack

/-- A letter, a digit or the underscore. -/
def isWordByte (byte : Byte) : Bool :=
  byte.isAlphanumeric || byte == Byte.underscore

/-- Exactly one of the bytes around the place belongs to a word. -/
def isWordEdge (frame : Frame) (site : Site) : Bool :=
  (!frame.beginsAt site && site.previous?.any isWordByte) != site.byte?.any isWordByte

/-- The place some bytes further on. -/
def forward (count : Nat) (site : Site) : Site where
  back := (site.rest.take count).reverse ++ site.back
  rest := site.rest.drop count
  offset := site.offset + count
  depth := site.depth

/-- The bytes between two offsets of the text that holds the place. -/
def taken (site : Site) (span : Nat × Nat) : Text :=
  ((site.back.reverse ++ site.rest).drop span.1).take (span.2 - span.1)

/-- One more round of a repetition.  At one place no more than two begin, so that rounds without a
byte come to an end. -/
def onceMore (mark : Nat) (round : Progress → Ending) (progress : Progress) : Ending :=
  let place := progress.site.offset
  let last := progress.rounds mark
  let begun := if last.1 = place then last.2 else 0
  if begun < 2 then
    round { progress with rounds := assign progress.rounds mark (place, begun + 1) }
  else
    .failed progress.groups

/-- A round and then what follows it, or what follows at once; the latter first if reluctant. -/
def choose (reluctant : Bool) (round next : Progress → Ending) (progress : Progress) : Ending :=
  if reluctant then
    (next progress).orElse fun groups => round { progress with groups := groups }
  else
    (round progress).orElse fun groups => next { progress with groups := groups }

/-- Rounds of a repetition, no more than a number, and then what follows. -/
def repeatRounds (round : (Progress → Ending) → Progress → Ending) (mark : Nat) (reluctant : Bool)
    (next : Progress → Ending) : Nat → Progress → Ending
  | 0, progress => next progress
  | count + 1, progress =>
      choose reluctant (onceMore mark (round (repeatRounds round mark reluctant next count))) next
        progress

/-- No more rounds than these can begin from a place on: two at each place that is left. -/
def roundsLeft (progress : Progress) : Nat :=
  2 * (progress.site.rest.length + 1)

/-- The search for an occurrence from a place on, and then for what follows it. -/
def search : Pattern → Frame → (Progress → Ending) → Progress → Ending
  | nothing, _, next, progress => next progress
  | oneOf set, _, next, progress =>
      if progress.site.byte?.any set.accepts then
        next { progress with site := forward 1 progress.site }
      else .failed progress.groups
  | textStart, frame, next, progress =>
      if frame.beginsAt progress.site then next progress else .failed progress.groups
  | textEnd, _, next, progress =>
      if progress.site.rest.isEmpty then next progress else .failed progress.groups
  | wordEdge expected, frame, next, progress =>
      if isWordEdge frame progress.site == expected then next progress
      else .failed progress.groups
  | again number, _, next, progress =>
      match progress.groups number with
      | none => .failed progress.groups
      | some span =>
          let wanted := taken progress.site span
          if Text.lower (progress.site.rest.take wanted.length) == Text.lower wanted then
            next { progress with site := forward wanted.length progress.site }
          else .failed progress.groups
  | before expected body, frame, next, progress =>
      let inside : Frame := ⟨progress.site.offset, frame.seesBack⟩
      match search body inside Progress.finish { progress with rounds := fun _ => (0, 0) } with
      | .found groups =>
          if expected then next { progress with groups := groups } else .failed groups
      | .failed _ => if expected then .failed progress.groups else next progress
  | group number body, frame, next, progress =>
      search body frame
        (fun reached =>
          let span := (progress.site.offset, reached.site.offset)
          (next { reached with groups := assign reached.groups number (some span) }).orElse
            fun groups => .failed (assign groups number (reached.groups number)))
        progress
  | followedBy first second, frame, next, progress =>
      search first frame (search second frame next) progress
  | either first second, frame, next, progress =>
      (search first frame next progress).orElse fun groups =>
        search second frame next { progress with groups := groups }
  | optional mark reluctant body, frame, next, progress =>
      choose reluctant (onceMore mark (search body frame next)) next progress
  | repeated mark reluctant once body, frame, next, progress =>
      let rounds := fun reached =>
        repeatRounds (search body frame) mark reluctant next (roundsLeft reached) reached
      if once then search body frame rounds progress else rounds progress

/-- The pattern occurs at a place of a text. -/
def occursAt (pattern : Pattern) (site : Site) : Bool :=
  (pattern.search ⟨site.offset, site.offset != 0⟩ Progress.finish
    ⟨site, fun _ => none, fun _ => (0, 0)⟩).isFound

/-- The pattern occurs somewhere in the text. -/
def occursIn (pattern : Pattern) (text : Text) : Bool :=
  ((Site.start text).everywhere ++ [Site.atOffset text text.length]).any pattern.occursAt

end Pattern

end TenantScope
