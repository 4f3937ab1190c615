import TenantScope.Scope.Injection
import TenantScope.Proofs.Folding
import TenantScope.Proofs.Renaming

/-!
# Written references to tables

After `FROM` a table is named by one or more parts, and each part is a word or a quoted identifier
with any content.  The scope column of the table goes by the content of the last part, but the name
is read byte by byte: it ends at the first byte that is no part of a word, no full stop and no
quotation mark, inside quotation marks too, and it goes on behind a closing mark.
-/

namespace TenantScope

open Text

namespace TableName

/-! ## References -/

/-- One part of a written reference. -/
inductive Part
  /-- A word. -/
  | bare (name : Text) (nonempty : name ≠ []) (identifiers : ∀ byte ∈ name,
      byte.isIdentifier = true)
  /-- An identifier in quotation marks. -/
  | quoted (mark : Byte) (marked : isMark mark = true) (content : Text)

namespace Part

/-- What a part stands for. -/
def content : Part → Text
  | bare name _ _ => name
  | quoted _ _ content => content

/-- A part as it is written; a mark in quotation marks of its kind is written twice. -/
def written : Part → Text
  | bare name _ _ => name
  | quoted mark _ content => mark :: (Literal.encode mark false content ++ [mark])

/-- A part that could be written as a word. -/
def IsPlain (part : Part) : Prop :=
  ∀ byte ∈ part.content, byte.isIdentifier = true

/-- A part in which nothing ends the name that is read. -/
def IsReadable (part : Part) : Prop :=
  ∀ byte ∈ part.content, continues byte = true

instance (part : Part) : Decidable part.IsPlain :=
  inferInstanceAs (Decidable (∀ byte ∈ part.content, byte.isIdentifier = true))

instance (part : Part) : Decidable part.IsReadable :=
  inferInstanceAs (Decidable (∀ byte ∈ part.content, continues byte = true))

end Part

/-- A written reference to a table. -/
structure Reference where
  /-- The parts before the last one. -/
  qualifiers : List Part
  /-- The name of the table itself. -/
  last : Part

namespace Reference

/-- The parts before the last one, with the full stops after them. -/
def qualification (reference : Reference) : Text :=
  reference.qualifiers.flatMap fun part => part.written ++ [Byte.dot]

def written (reference : Reference) : Text :=
  reference.qualification ++ reference.last.written

/-- A reference whose name is read up to its last part at least. -/
def IsReadable (reference : Reference) : Prop :=
  ∀ part ∈ reference.qualifiers, part.IsReadable

instance (reference : Reference) : Decidable reference.IsReadable :=
  inferInstanceAs (Decidable (∀ part ∈ reference.qualifiers, part.IsReadable))

end Reference

/-! ## Bytes of names -/

theorem continues_of_isIdentifier {byte : Byte} (identifier : byte.isIdentifier = true) :
    continues byte = true := by
  simp [continues, identifier]

theorem continues_of_isMark {byte : Byte} (mark : isMark byte = true) : continues byte = true := by
  simp [continues, mark]

theorem isMark_of_isIdentifier {byte : Byte} (identifier : byte.isIdentifier = true) :
    isMark byte = false := by
  refine Bool.eq_false_iff.mpr fun mark => ?_
  simp only [isMark, Bool.or_eq_true, beq_iff_eq] at mark
  rcases mark with rfl | rfl <;> exact absurd identifier (by decide)

theorem isSpace_of_continues {byte : Byte} (continued : continues byte = true) :
    byte.isSpace = false := by
  have apart : ∀ byte : Byte, continues byte = true → byte.isSpace = false := by decide +kernel
  exact apart byte continued

theorem mem_encode {mark byte : Byte} {escapes : Bool} {content : Text} :
    byte ∈ Literal.encode mark escapes content ↔ byte ∈ content := by
  induction content with
  | nil => rfl
  | cons other content ih =>
      rw [Literal.encode]
      split <;> simp [ih]

/-- The bytes of a text other than quotation marks around identifiers. -/
def unmarked (text : Text) : Text :=
  text.filter fun byte => !isMark byte

@[simp]
theorem unmarked_append (text other : Text) :
    unmarked (text ++ other) = unmarked text ++ unmarked other :=
  List.filter_append ..

theorem unmarked_of_identifiers {text : Text}
    (identifiers : ∀ byte ∈ text, byte.isIdentifier = true) :
    unmarked text = text :=
  List.filter_eq_self.mpr fun byte member => by
    simp [isMark_of_isIdentifier (identifiers byte member)]

theorem unmarked_eq_nil_iff {text : Text} : unmarked text = [] ↔
    ∀ byte ∈ text, isMark byte = true := by
  simp [unmarked, List.filter_eq_nil_iff]

theorem unmarked_encode {mark : Byte} (marked : isMark mark = true) (content : Text) :
    unmarked (Literal.encode mark false content) = unmarked content := by
  induction content with
  | nil => rfl
  | cons byte content ih =>
      by_cases same : byte = mark
      · subst same
        simpa [Literal.encode, unmarked, marked] using ih
      · simpa [Literal.encode, unmarked, same, List.filter_cons] using congrArg
          (fun kept => if isMark byte = false then byte :: kept else kept) ih

namespace Part

theorem mem_written_of_mem_content {part : Part} {byte : Byte} (member : byte ∈ part.content) :
    byte ∈ part.written := by
  cases part with
  | bare name nonempty identifiers => exact member
  | quoted mark marked content => simp [written, mem_encode, show byte ∈ content from member]

theorem continues_of_mem_written {part : Part} (readable : part.IsReadable) :
    ∀ byte ∈ part.written, continues byte = true := by
  intro byte member
  cases part with
  | bare name nonempty identifiers => exact readable byte member
  | quoted mark marked content =>
      simp only [written, List.mem_cons, List.mem_append, mem_encode, List.not_mem_nil, or_false]
        at member
      rcases member with rfl | member | rfl
      · exact continues_of_isMark marked
      · exact readable byte member
      · exact continues_of_isMark marked

theorem unmarked_written (part : Part) : unmarked part.written = unmarked part.content := by
  cases part with
  | bare name nonempty identifiers => rfl
  | quoted mark marked content =>
      have mark_only : unmarked [mark] = [] := unmarked_eq_nil_iff.mpr (by simpa using marked)
      rw [written, ← List.singleton_append, unmarked_append, unmarked_append, mark_only,
        unmarked_encode marked, List.nil_append, List.append_nil, Part.content]

theorem IsPlain.isReadable {part : Part} (plain : part.IsPlain) : part.IsReadable :=
  fun byte member => continues_of_isIdentifier (plain byte member)

theorem exists_written (part : Part) :
    ∃ first others, part.written = first :: others ∧ continues first = true := by
  cases part with
  | bare name nonempty identifiers =>
      obtain ⟨first, others, rfl⟩ := List.exists_cons_of_ne_nil nonempty
      exact ⟨first, others, rfl, continues_of_isIdentifier (identifiers first List.mem_cons_self)⟩
  | quoted mark marked content => exact ⟨mark, _, rfl, continues_of_isMark marked⟩

end Part

/-! ## Reading references -/

namespace Reference

variable {reference : Reference}

theorem visible_written (reference : Reference) (rest : Text) :
    (reference.written ++ rest).head?.any Byte.isSpace = false := by
  obtain ⟨qualifiers, last⟩ := reference
  cases qualifiers with
  | nil =>
      obtain ⟨first, others, written_eq, continued⟩ := last.exists_written
      simp [written, qualification, written_eq, isSpace_of_continues continued]
  | cons part qualifiers =>
      obtain ⟨first, others, written_eq, continued⟩ := part.exists_written
      simp [written, qualification, written_eq, isSpace_of_continues continued]

/-- White space before a reference is passed over. -/
theorem read_written {blanks : Text} (spaces : ∀ byte ∈ blanks, byte.isSpace = true)
    (reference : Reference) (rest : Text) :
    read (blanks ++ (reference.written ++ rest)) =
      unmarked ((reference.written ++ rest).takeWhile continues) := by
  induction blanks with
  | nil => exact read_of_visible (visible_written reference rest)
  | cons blank blanks ih =>
      rw [List.forall_mem_cons] at spaces
      rw [List.cons_append, read_of_space spaces.1, ih spaces.2]

theorem continues_of_mem_qualification (readable : reference.IsReadable) :
    ∀ byte ∈ reference.qualification, continues byte = true := by
  intro byte member
  obtain ⟨part, part_mem, written_mem⟩ := List.mem_flatMap.mp member
  rcases List.mem_append.mp written_mem with inside | stop
  · exact Part.continues_of_mem_written (readable part part_mem) byte inside
  · obtain rfl : byte = Byte.dot := by simpa using stop
    decide

/-- Of a reference that is not readable the last part is not read. -/
theorem takeWhile_of_not_isReadable (unreadable : ¬ reference.IsReadable) (rest : Text) :
    (reference.qualification ++ rest).takeWhile continues =
      reference.qualification.takeWhile continues := by
  have stops : ¬ ∀ byte ∈ reference.qualification, continues byte = true := by
    refine fun all => unreadable fun part part_mem byte member => all byte ?_
    exact List.mem_flatMap.mpr
      ⟨part, part_mem, List.mem_append_left _ (Part.mem_written_of_mem_content member)⟩
  rw [List.takeWhile_append, if_neg]
  intro whole
  have same := (List.takeWhile_prefix continues).sublist.eq_of_length whole
  exact stops fun byte member => List.mem_takeWhile_imp (p := continues) (same ▸ member)

end Reference

/-! ## Keys of references -/

/-- The key of a name goes by what comes after its last full stop. -/
theorem key_append_dot (front name : Text) : key (front ++ Byte.dot :: name) = key name := by
  have stop : unmarked [Byte.dot] = [Byte.dot] := by decide
  change lower ((unmarked (front ++ Byte.dot :: name)).reverse.takeWhile (· != Byte.dot)).reverse =
    lower ((unmarked name).reverse.takeWhile (· != Byte.dot)).reverse
  rw [← List.singleton_append, unmarked_append, unmarked_append, stop]
  simp only [List.reverse_append, List.reverse_singleton, List.append_assoc, List.takeWhile_append]
  split
  · rename_i whole
    simp [(List.takeWhile_prefix _).sublist.eq_of_length whole]
  · rfl

theorem key_of_identifiers {name : Text} (identifiers : ∀ byte ∈ name, byte.isIdentifier = true) :
    key name = lower name := by
  have undotted : ∀ byte ∈ name.reverse, (byte != Byte.dot) = true := by
    intro byte member
    refine bne_iff_ne.mpr ?_
    rintro rfl
    exact absurd (identifiers _ (List.mem_reverse.mp member)) (by decide)
  change lower ((unmarked name).reverse.takeWhile (· != Byte.dot)).reverse = lower name
  rw [unmarked_of_identifiers identifiers, List.takeWhile_eq_self_iff.mpr undotted,
    List.reverse_reverse]

theorem isIdentifier_of_mem_key {name : Text} (continued : ∀ byte ∈ name, continues byte = true) :
    ∀ byte ∈ key name, byte.isIdentifier = true := by
  intro byte member
  obtain ⟨other, other_mem, rfl⟩ := List.mem_map.mp member
  rw [List.mem_reverse] at other_mem
  have undotted := List.mem_takeWhile_imp (p := (· != Byte.dot)) other_mem
  obtain ⟨name_mem, plain⟩ := List.mem_filter.mp
    (List.mem_reverse.mp ((List.takeWhile_sublist _).subset other_mem))
  have known := continued other name_mem
  rw [Byte.caseless_isIdentifier other]
  simp_all [continues]

theorem key_qualification (qualifiers : List Part) (name : Text) :
    key (unmarked (qualifiers.flatMap fun part => part.written ++ [Byte.dot]) ++ name) =
      key name := by
  have stop : unmarked [Byte.dot] = [Byte.dot] := by decide
  induction qualifiers with
  | nil => rfl
  | cons part qualifiers ih =>
      rw [List.flatMap_cons, unmarked_append, unmarked_append, stop, List.append_assoc,
        List.append_assoc, List.singleton_append, key_append_dot, ih]

namespace Reference

variable {reference : Reference} {rest : Text}

/-- The key of a readable reference goes by its last part and what is read behind it. -/
theorem key_takeWhile (readable : reference.IsReadable) (rest : Text) :
    key (unmarked ((reference.written ++ rest).takeWhile continues)) =
      key (unmarked ((reference.last.written ++ rest).takeWhile continues)) := by
  rw [written, List.append_assoc,
    List.takeWhile_append_of_pos (continues_of_mem_qualification readable), unmarked_append,
    qualification, key_qualification]

/-- A last part that could be written as a word is read with what goes on behind it. -/
theorem key_last {last : Part} (plain : last.IsPlain)
    (undotted : Byte.dot ∉ rest.takeWhile continues) :
    key (unmarked ((last.written ++ rest).takeWhile continues)) =
      lower (last.content ++ unmarked (rest.takeWhile continues)) := by
  rw [List.takeWhile_append_of_pos (Part.continues_of_mem_written plain.isReadable),
    unmarked_append, Part.unmarked_written, unmarked_of_identifiers plain]
  refine key_of_identifiers fun byte member => ?_
  rcases List.mem_append.mp member with inside | behind
  · exact plain byte inside
  · obtain ⟨run_mem, unmarked⟩ := List.mem_filter.mp behind
    have continued : continues byte = true := List.mem_takeWhile_imp run_mem
    have apart : byte ≠ Byte.dot := fun same => undotted (same ▸ run_mem)
    simp_all [continues]

end Reference

end TableName

/-! ## The table of a text -/

namespace Outline

open TableName

/-- The table of an outline is the name after its `FROM`. -/
theorem table_of_source? {text : Text} {source : Source}
    (found : (ofText text).source? = some source) :
    source.table = read (text.drop (source.offset + 4)) := by
  have noted (sites : List Site) (placed : ∀ site ∈ sites, site.rest = text.drop site.offset)
      (outline : Outline) (sound : ∀ source, outline.source? = some source →
        source.table = read (text.drop (source.offset + 4))) :
      ∀ source, (sites.foldl note outline).source? = some source →
        source.table = read (text.drop (source.offset + 4)) := by
    induction sites generalizing outline with
    | nil => exact sound
    | cons site sites ih =>
        rw [List.forall_mem_cons] at placed
        refine ih placed.2 (note outline site) ?_
        intro source source_eq
        unfold note at source_eq
        split at source_eq
        · refine sound source ?_
          rwa [source?_addClause] at source_eq
        · split at source_eq
          · rename_i length named
            have length_eq : length = 4 := by
              rw [Site.word?_of_isName (by decide)] at named
              exact (Option.some_inj.mp (Option.ite_none_right_eq_some.mp named).2).symm
            unfold addSource at source_eq
            split at source_eq
            · exact sound source source_eq
            · obtain rfl := Option.some_inj.mp source_eq
              rw [length_eq, placed.1, List.drop_drop]
          · refine sound source ?_
            split at source_eq <;> exact source_eq
  refine noted _ (fun site member => ?_) empty (by simp [empty]) source found
  exact (Site.of_mem_tour_start (List.mem_filter.mp (List.mem_filter.mp member).1).1).2

end Outline

namespace ScopeRules

/-- The scope column of a table goes by its key. -/
theorem columnOf_congr (rules : ScopeRules) (tenant : Tenant) {table other : Text}
    (nonempty : table ≠ []) (other_nonempty : other ≠ [])
    (same : TableName.key table = TableName.key other) :
    rules.columnOf tenant table = rules.columnOf tenant other := by
  rw [columnOf, columnOf, if_neg (by simpa using nonempty),
    if_neg (by simpa using other_nonempty), same]

end ScopeRules

namespace TableName

/-- The table of a text whose `FROM` is followed by a written reference has the last part of it for
its key only if that part could be written as a word.  If nothing in the parts before ends the name,
and what is read behind the reference has no full stop, then it has exactly if nothing but quotation
marks is read there; otherwise the last part is not read at all.  A table with that key has the
scope column of the last part. -/
theorem key_of_reference {text blanks rest : Text} {source : Source} {reference : Reference}
    (found : (Outline.ofText text).source? = some source)
    (spaces : ∀ byte ∈ blanks, byte.isSpace = true)
    (named : text.drop (source.offset + 4) = blanks ++ (reference.written ++ rest)) :
    (key source.table = lower reference.last.content → reference.last.IsPlain) ∧
      (reference.IsReadable → Byte.dot ∉ rest.takeWhile continues →
        (key source.table = lower reference.last.content ↔
          reference.last.IsPlain ∧ ∀ byte ∈ rest.takeWhile continues, isMark byte = true)) ∧
      (¬ reference.IsReadable →
        source.table = unmarked (reference.qualification.takeWhile continues)) ∧
      (key source.table = lower reference.last.content → reference.last.content ≠ [] →
        ∀ rules tenant, ScopeRules.columnOf rules tenant source.table =
          rules.columnOf tenant reference.last.content) := by
  have table_eq : source.table = unmarked ((reference.written ++ rest).takeWhile continues) := by
    rw [Outline.table_of_source? found, named, Reference.read_written spaces]
  have plain_of_key (same : key source.table = lower reference.last.content) :
      reference.last.IsPlain := by
    intro byte member
    have continued : ∀ byte ∈ source.table, continues byte = true := fun byte member =>
      List.mem_takeWhile_imp (List.mem_of_mem_filter (table_eq ▸ member))
    have lowered : byte.toLower ∈ key source.table := same ▸ List.mem_map_of_mem member
    rw [← Byte.caseless_isIdentifier byte]
    exact isIdentifier_of_mem_key continued _ lowered
  refine ⟨plain_of_key, fun readable undotted => ?_, fun unreadable => ?_,
    fun same nonempty rules tenant => ?_⟩
  · have key_eq (plain : reference.last.IsPlain) : key source.table =
        lower reference.last.content ++ lower (unmarked (rest.takeWhile continues)) := by
      rw [table_eq, Reference.key_takeWhile readable, Reference.key_last plain undotted,
        lower_append]
    constructor
    · intro same
      have plain := plain_of_key same
      refine ⟨plain, unmarked_eq_nil_iff.mp ?_⟩
      simpa [same, Text.lower] using key_eq plain
    · rintro ⟨plain, marks⟩
      rw [key_eq plain, unmarked_eq_nil_iff.mpr marks, lower_nil, List.append_nil]
  · rw [table_eq, Reference.written, List.append_assoc,
      Reference.takeWhile_of_not_isReadable unreadable]
  · have key_eq := same.trans (key_of_identifiers (plain_of_key same)).symm
    refine rules.columnOf_congr tenant ?_ nonempty key_eq
    intro none
    rw [none] at same
    exact nonempty (by simpa [key, Text.lower] using same.symm)

/-- A table in a schema, both of them quoted. -/
theorem key_of_reference_quoted :
    let spaced := ascii "SELECT * FROM  \"My schema\".`Tenants` WHERE a = 1"
    let dotted := ascii "SELECT * FROM  \"My.schema\".`Tenants` WHERE a = 1"
    let last : Part := .quoted Byte.backtick (by decide) (ascii "Tenants")
    (∃ source, (Outline.ofText spaced).source? = some source ∧ source.table = ascii "My") ∧
      ∃ source, (Outline.ofText dotted).source? = some source ∧
        key source.table = lower last.content ∧
        ScopeRules.columnOf {} {} source.table = ScopeRules.columnOf {} {} (ascii "Tenants") := by
  intro spaced dotted last
  have spaces : ∀ byte ∈ ascii "  ", byte.isSpace = true := by decide +kernel
  constructor
  · refine ⟨⟨9, ascii "My"⟩, by decide +kernel, ?_⟩
    obtain ⟨-, -, unread, -⟩ := @key_of_reference spaced (ascii "  ") (ascii " WHERE a = 1")
      ⟨9, ascii "My"⟩
      ⟨[.quoted Byte.quotation (by decide) (ascii "My schema")], last⟩ (by decide +kernel) spaces
      (by decide +kernel)
    exact (unread (by decide +kernel)).trans (by decide +kernel)
  · refine ⟨⟨9, ascii "My.schema.Tenants"⟩, by decide +kernel, ?_⟩
    obtain ⟨-, readable, -, column⟩ := @key_of_reference dotted (ascii "  ") (ascii " WHERE a = 1")
      ⟨9, ascii "My.schema.Tenants"⟩
      ⟨[.quoted Byte.quotation (by decide) (ascii "My.schema")], last⟩
      (by decide +kernel) spaces (by decide +kernel)
    have same :=
      (readable (by decide +kernel) (by decide +kernel)).mpr ⟨by decide +kernel, by decide +kernel⟩
    exact ⟨same, column same (by decide) {} {}⟩

/-- A table whose quoted name has a blank in it: it is taken for the table that the first word of
the name names, and scoped by the column of that one. -/
theorem inject_with_spaced_name :
    let text := ascii "SELECT * FROM \"tenants x\" WHERE a = 1"
    let reference : Reference := ⟨[], .quoted Byte.quotation (by decide) (ascii "tenants x")⟩
    (Outline.ofText text).source? = some ⟨9, ascii "tenants"⟩ ∧
      text.drop 13 = ascii " " ++ (reference.written ++ ascii " WHERE a = 1") ∧
      key (ascii "tenants") ≠ lower reference.last.content ∧
      ScopeRules.columnOf {} {} (ascii "tenants x") = ascii "tenant_id" ∧
      Scope.inject {} { id := ascii "7" } ⟨[], text⟩ =
        .ok ⟨[], ascii "SELECT * FROM \"tenants x\" WHERE a = 1 AND id = '7'"⟩ := by
  decide +kernel

end TableName

end TenantScope
