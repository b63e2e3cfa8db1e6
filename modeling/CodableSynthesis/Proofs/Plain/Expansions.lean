import CodableSynthesis.Proofs.Joining.Expansions
import CodableSynthesis.Proofs.Plain.Generated

/-!
What a plain class expands to. The places of the three edits are known from its text: one takes the
line of the attribute out, one stands behind the members, and one behind the class.

* `PlainClass.Becomes.removal`, `PlainClass.Becomes.insertion`, `PlainClass.Becomes.extension`: the
  three edits.
* `made_three`: what three edits of this shape make of a text.
* `PlainClass.Becomes.output`: the edits turn the text of a plain class into the text that it is to
  expand to.
* `expandSource_plain`: the output for every plain class, as a text.
* `expandSource_plain_unsound`: classes of the same shape that are not expanded so.

The statement is about texts from end to end. On one side stands what `expand_source` gives for the
text of a class, on the other a text that is written down line by line, and nothing in between is
mentioned.

What `PlainClass.Sound` leaves out is shown to be necessary, one class for each point. A class
called `open` is not found, since `class` in front of a modifier is a modifier. A type that is the
single word `any` takes the next line for its operand. A question mark behind a function type
belongs to the type of its result. And a type that is written in another spelling than the canonical
one, such as `[String:Int]`, is decoded in the canonical one; in that class the type is given as a
text, being none that is read.
-/

namespace CodableSynthesis

open Lexeme (EndsPlain)
open Text (byteLength byteLength_append isWhiteSpace leadingSpace trimEnd)

/-! ### Texts that end with no white space -/

/-- Up to the end of its last token, a text ends with no white space. -/
theorem Cut.endsPlain {ls : List Lexeme} {cs : List Char} (h : Cut ls cs)
    (nonempty : ls ≠ []) : EndsPlain (ls.flatMap Lexeme.whole) := by
  induction h with
  | done => exact absurd rfl nonempty
  | @lexeme gap _ _ _ ls _ spelled _ _ ih =>
    rw [List.flatMap_cons]
    cases ls with
    | nil =>
      rw [List.flatMap_nil, List.append_nil]
      exact spelled.endsPlain.append gap.text
    | cons => exact (ih nofun).append _

theorem PlainMember.Sound.endsPlain {m : PlainMember} (h : m.Sound) : EndsPlain m.line.toList := by
  obtain ⟨ts, written⟩ := h.tokens
  have cut := written.sound.cut AtLineEnd.nil (.done trailing_nil)
  rw [List.append_nil] at cut
  have ends := cut.endsPlain (by simp [written.sound.nonempty])
  rwa [flatMap_whole_lexemes, written.text] at ends

namespace PlainClass

variable {c : PlainClass} {d : Declaration} {model : FieldModel} {w : Writer}

/-! ### The expansion

What is generated, and the edits that are made for it: one for the attribute, one for the members
and one for the extension. -/

namespace Becomes

theorem registered (h : c.Becomes d) : d.registered = d.heading.attributes := by
  obtain ⟨a, made, named, -⟩ := h.attributes
  have expanded : (Capability.named? (Attribute.simpleName a.name)).isSome = true := by
    rw [named]
    decide
  simp [Declaration.registered, made, expanded]

theorem isAnnotated (h : c.Becomes d) : d.isAnnotated = true := by
  obtain ⟨a, made, -⟩ := h.attributes
  rw [Declaration.isAnnotated_iff, h.registered, made]
  nofun

/-- The class is all that is annotated in its text. -/
theorem annotated (h : c.Becomes d) : d.annotated = [(c.name, d)] := by
  have isAnnotated := h.isAnnotated
  have inside := h.members.annotatedIn d.heading.name
  obtain ⟨heading, members, opener, closer⟩ := d
  rw [Declaration.annotated, Declaration.annotatedAs, inside]
  dsimp only
  rw [if_pos isAnnotated, h.name]
  rfl

theorem generatedMembers (h : c.Becomes d) (extracted : FieldModel.extract c.name d = .ok model) :
    d.generatedMembers w c.name = model.members.toList.map w.render := by
  obtain ⟨a, made, -⟩ := h.attributes
  rw [Declaration.generatedMembers, extracted, h.registered, made]
  exact List.append_nil _

theorem generatedExtensions (h : c.Becomes d)
    (extracted : FieldModel.extract c.name d = .ok model) :
    d.generatedExtensions w c.name = [w.render (.conformance model.conformance)] := by
  obtain ⟨a, made, -⟩ := h.attributes
  rw [Declaration.generatedExtensions, extracted, h.registered, made]
  rfl

theorem diagnostics (h : c.Becomes d) (extracted : FieldModel.extract c.name d = .ok model)
    (none_ : model.diagnostics = []) : (d.expand w c.name).diagnostics = [] := by
  obtain ⟨a, made, -⟩ := h.attributes
  have repeated : d.repeatedConformance c.name = [] := by
    rw [Declaration.repeatedConformance, h.inherited]
    rfl
  rw [Declaration.expand_parts (·.diagnostics) rfl fun _ _ => rfl, h.registered, made,
    List.flatMap_singleton, Declaration.expandAttribute, extracted]
  dsimp only
  rw [none_, repeated]
  rfl

/-- The three edits that a plain class is expanded by. -/
theorem allEdits (h : c.Becomes d) (source : List Char) :
    d.allEdits source w = d.heading.attributes.map (fun a => Edit.removal source a.span) ++
      [.insertion source w.indentWidth d (d.generatedMembers w c.name),
        .extension d (d.generatedExtensions w c.name)] := by
  have isAnnotated := h.isAnnotated
  have extensions : (d.expansions w).flatMap (·.extensions) = d.generatedExtensions w c.name := by
    rw [Declaration.expansions, h.annotated, List.map_singleton, List.flatMap_singleton,
      Declaration.expand_extensions]
  have some_ : (d.generatedExtensions w c.name).isEmpty = false := by
    obtain ⟨model, extracted, -⟩ := h.extract
    rw [h.generatedExtensions extracted]
    rfl
  have own : d.edits source w c.name = d.announcedFor source w c.name := by
    have inside := h.members.editsIn source w c.name
    have own := @Declaration.ownEdits source w c.name d
    rw [if_pos isAnnotated] at own
    rw [← own]
    obtain ⟨heading, members, opener, closer⟩ := d
    rw [Declaration.edits, inside, List.append_nil]
  rw [Declaration.allEdits, extensions, h.name, own, Declaration.announcedFor, h.registered,
    if_pos h.kind]
  simp [some_]

end Becomes

/-! ### The places of the edits

Each edit is brought to numbers of bytes in the text of the class. White space is what has to be
looked at: an edit that puts members in replaces all of it in front of the brace, and there is no
more than a line feed. -/

/-- The text of the members is empty, or ends with no white space. -/
theorem Sound.endsPlain_bodyText (h : c.Sound) : c.bodyText = [] ∨ EndsPlain c.bodyText := by
  have each := fun m mem => (h.members m mem).endsPlain
  rw [bodyText, memberLines]
  generalize c.members = ms at each
  induction ms with
  | nil => exact .inl rfl
  | cons m ms ih =>
    obtain ⟨here, later⟩ := List.forall_mem_cons.mp each
    rw [List.map_cons, List.flatMap_cons]
    rcases ih later with nothing | plain
    · rw [nothing, List.append_nil, String.toList_append, ← List.cons_append]
      exact .inr (here.append _)
    · exact .inr (plain.append _)

/-- The line feed in front of the closing brace is all the white space there. -/
theorem Sound.trimEnd_bodyText (h : c.Sound) : trimEnd (c.bodyText ++ ['\n']) = c.bodyText := by
  rcases h.endsPlain_bodyText with nothing | ⟨ch, last, plain⟩
  · rw [nothing]
    rfl
  · obtain ⟨front, made⟩ := List.getLast?_eq_some_iff.mp last
    have lineFeed : isWhiteSpace '\n' = true := by decide
    rw [made]
    simp [trimEnd, plain, lineFeed]

theorem isEmpty_bodyText : c.bodyText.isEmpty = c.members.isEmpty := by
  unfold bodyText memberLines
  cases c.members <;> rfl

/-- The heading begins with no white space. -/
theorem Sound.headingLine_eq_cons (h : c.Sound) :
    ∃ first rest, c.headingLine.toList = first :: rest ∧ isWhiteSpace first = false := by
  have words : Modifier.keywords.all (·.toList.head?.any (!isWhiteSpace ·)) = true := by
    decide +kernel
  unfold headingLine modified
  cases modifier : c.modifier with
  | none =>
    rw [String.toList_append, String.toList_append]
    exact ⟨'c', _, rfl, by decide⟩
  | some m =>
    have word := List.all_eq_true.mp words m (h.modifier m modifier)
    cases made : m.toList with
    | nil =>
      rw [made] at word
      cases word
    | cons first rest =>
      rw [made] at word
      exact ⟨first, _, by rw [String.toList_append, String.toList_append, made]; rfl,
        by simpa using word⟩

theorem toList_source_attribute : c.source.toList = "@Codable".toList ++
    '\n' :: (c.headingLine.toList ++ (c.bodyText ++ "\n\x7d\n".toList)) := by
  refine toList_source.trans ?_
  unfold frontText
  simp

theorem toList_source_modified : c.source.toList = "@Codable\n".toList ++ (c.modified "").toList ++
    (("class " ++ c.name ++ " \x7b").toList ++ (c.bodyText ++ "\n\x7d\n".toList)) := by
  refine toList_source.trans ?_
  unfold frontText headingLine modified
  cases c.modifier <;> simp

/-- The attribute is taken out with its line. -/
theorem Becomes.removal (h : c.Becomes d) (sound : c.Sound) :
    d.heading.attributes.map (fun a => Edit.removal c.source.toList a.span) = [⟨0, 9, []⟩] := by
  obtain ⟨a, made, -, start, stop⟩ := h.attributes
  obtain ⟨first, rest, heading, plain⟩ := sound.headingLine_eq_cons
  have behind : Text.dropBytes 8 c.source.toList =
      '\n' :: (c.headingLine.toList ++ (c.bodyText ++ "\n\x7d\n".toList)) := by
    have length : byteLength "@Codable".toList = 8 := by decide
    rw [toList_source_attribute, ← length]
    exact Text.dropBytes_byteLength_append _ _
  have lineFeed : isWhiteSpace '\n' = true := by decide
  have space : leadingSpace (Text.dropBytes 8 c.source.toList) = ['\n'] := by
    rw [behind, heading, leadingSpace]
    simp [lineFeed, plain]
  rw [made, List.map_singleton, Edit.removal, start, stop, space]
  rfl

/-- No white space stands in front of the line of the heading. -/
theorem Sound.indentation_heading (h : c.Sound) :
    Text.indentation (Text.lastLine ("@Codable\n".toList ++ (c.modified "").toList)) = [] := by
  have words : Modifier.keywords.all
      (fun m => (Text.indentation (Text.lastLine (m ++ " ").toList)).isEmpty) = true := by
    decide +kernel
  have line : Text.EndsLine "@Codable\n".toList := .inr (by decide)
  rw [Text.lastLine_append line, modified]
  cases modifier : c.modifier with
  | none => rfl
  | some m =>
    have word := List.all_eq_true.mp words m (h.modifier m modifier)
    dsimp only
    rw [String.append_empty]
    exact List.isEmpty_iff.mp word

/-- The body of a plain class. -/
theorem Becomes.body (h : c.Becomes d) :
    d.Body c.source.toList c.frontText (c.bodyText ++ ['\n']) ['\n'] where
  made := by simp [toList_source]
  opens := by
    unfold frontText headingLine modified
    cases c.modifier <;> simp [List.getLast?_cons]
  opener := h.opener
  start := h.closer.1
  stop := by simpa using h.closer.2

/-- The generated members are put behind those of the class. -/
theorem Becomes.insertion (h : c.Becomes d) (sound : c.Sound) (w : Nat) (members : List String) :
    Edit.insertion c.source.toList w d members =
      ⟨byteLength (c.frontText ++ c.bodyText), byteLength (c.frontText ++ (c.bodyText ++ ['\n'])),
        Edit.memberText [] w c.members.isEmpty members⟩ := by
  have before : Text.takeBytes d.heading.keyword.start c.source.toList =
      "@Codable\n".toList ++ (c.modified "").toList := by
    rw [h.keyword, toList_source_modified]
    exact Text.takeBytes_byteLength_append _ _
  rw [Edit.insertion, h.body.slice, sound.trimEnd_bodyText, before, sound.indentation_heading,
    isEmpty_bodyText, h.opener, h.closer.1, ← byteLength_append]

/-- The extension is put behind the class. -/
theorem Becomes.extension (h : c.Becomes d) (extensions : List String) :
    Edit.extension d extensions =
      ⟨byteLength (c.frontText ++ (c.bodyText ++ ['\n', '\x7d'])),
        byteLength (c.frontText ++ (c.bodyText ++ ['\n', '\x7d'])),
        extensions.flatMap fun e => '\n' :: '\n' :: e.toList⟩ := by
  rw [Edit.extension, Declaration.stop, h.closer.2]

/-! ### The output -/

/-- Three edits: the front of a text is taken out, white space in it is replaced, and another text
is put in further behind. -/
theorem made_three {front kept space closer rest : List Char} (members extension : List Char) :
    Edit.Made 0
      [⟨0, byteLength front, []⟩,
        ⟨byteLength (front ++ kept), byteLength (front ++ (kept ++ space)), members⟩,
        ⟨byteLength (front ++ (kept ++ (space ++ closer))),
          byteLength (front ++ (kept ++ (space ++ closer))), extension⟩]
      (front ++ (kept ++ (space ++ (closer ++ rest))))
      (kept ++ (members ++ (closer ++ (extension ++ rest)))) := by
  have third : Edit.Made (byteLength (front ++ (kept ++ space)))
      [⟨byteLength (front ++ (kept ++ (space ++ closer))),
        byteLength (front ++ (kept ++ (space ++ closer))), extension⟩]
      (closer ++ ([] ++ rest)) (closer ++ (extension ++ rest)) :=
    .edit (by simp [Nat.add_assoc]) rfl .done
  have second : Edit.Made (byteLength front)
      (⟨byteLength (front ++ kept), byteLength (front ++ (kept ++ space)), members⟩ :: _)
      (kept ++ (space ++ (closer ++ ([] ++ rest)))) _ :=
    .edit (by simp) (by simp [Nat.add_assoc]) third
  exact @Edit.Made.edit 0 ⟨0, byteLength front, []⟩ _ [] front _ _ rfl (Nat.zero_add _).symm second

/-- The edits made in the text of a plain class: each at its place, in the order of the text. -/
theorem Becomes.made (h : c.Becomes d) (sound : c.Sound) (w : Nat)
    (members extensions : List String) :
    Edit.Made 0
      (d.heading.attributes.map (fun a => Edit.removal c.source.toList a.span) ++
        [Edit.insertion c.source.toList w d members, Edit.extension d extensions])
      c.source.toList
      (c.headingLine.toList ++ c.bodyText ++ (Edit.memberText [] w c.members.isEmpty members ++
        ('\x7d' :: (extensions.flatMap (fun e => '\n' :: '\n' :: e.toList) ++ ['\n'])))) := by
  have text : c.source.toList = "@Codable\n".toList ++
      (c.headingLine.toList ++ c.bodyText ++ (['\n'] ++ (['\x7d'] ++ ['\n']))) := by
    refine toList_source.trans ?_
    unfold frontText
    simp
  have places (cs : List Char) : c.frontText ++ (c.bodyText ++ cs) =
      "@Codable\n".toList ++ (c.headingLine.toList ++ c.bodyText ++ cs) := by
    unfold frontText
    simp only [List.append_assoc]
  have place := places []
  rw [List.append_nil, List.append_nil] at place
  have length : 9 = byteLength "@Codable\n".toList := by decide
  rw [h.removal sound, h.insertion sound, h.extension, text, place, places, places, length]
  exact @made_three _ _ _ ['\x7d'] _ _ _

theorem toList_expanded (w : Nat) : (c.expanded w).toList =
    c.headingLine.toList ++ c.bodyText ++
      ((if c.members.isEmpty then [] else ['\n']) ++
        (c.generatedLines w).flatMap (fun l => '\n' :: l.toList) ++ ['\n'] ++
      ('\x7d' :: ('\n' :: '\n' :: (("extension " ++ c.name ++ ": Codable \x7b").toList ++
        "\n\x7d".toList) ++ ['\n']))) := by
  have lines : c.memberLines.flatMap (fun l => '\n' :: l.toList) = c.bodyText := rfl
  rw [expanded, List.cons_append, List.cons_append, List.cons_append, Text.toList_ofLines]
  simp only [List.flatMap_append, lines]
  cases c.members.isEmpty <;> simp

/-- The edits turn the text of a plain class into the text that it is to expand to. -/
theorem Becomes.output (h : c.Becomes d) (sound : c.Sound) (indentWidth : Nat) :
    Edit.applyAll (d.allEdits c.source.toList (.new indentWidth)) c.source.toList =
      (c.expanded indentWidth).toList := by
  obtain ⟨model, extracted, typeName, modifier, fields, -⟩ := h.extract
  have printed : model.Sound := h.printed.sound (h.name ▸ h.printed.name) extracted
  have made := h.made sound indentWidth (d.generatedMembers (.new indentWidth) c.name)
    (d.generatedExtensions (.new indentWidth) c.name)
  rw [h.allEdits]
  refine made.applyFrom_eq.trans ?_
  rw [h.generatedMembers extracted, h.generatedExtensions extracted,
    memberText_members sound printed modifier fields, List.flatMap_singleton, render_conformance,
    typeName, ← toList_expanded]

/-- A class is expanded, once and without warnings: the attribute is gone with its line, the members
are followed by the declarations generated for the stored properties, and the class by an
extension. -/
def ExpandsAsWritten (c : PlainClass) (indentWidth : Nat) : Prop :=
  expandSource c.source indentWidth = .ok ⟨c.expanded indentWidth, 1, []⟩

end PlainClass

/-- So are all plain classes, whatever their names, types and members, and at every indentation
width. The class may be empty, its modifier any keyword that is one, and its types any that can be
read from a source. -/
theorem expandSource_plain {c : PlainClass} (h : c.Sound) (indentWidth : Nat) :
    c.ExpandsAsWritten indentWidth := by
  obtain ⟨d, parsed, becomes⟩ := h.readSource
  obtain ⟨model, extracted, -, -, -, nothing⟩ := becomes.extract
  have once : d.expansions (.new indentWidth) = [d.expand (.new indentWidth) c.name] := by
    rw [Declaration.expansions, becomes.annotated]
    rfl
  have count : [d.expand (.new indentWidth) c.name].countP (fun e => !e.members.isEmpty) = 1 := by
    rw [List.countP_singleton, Declaration.expand_members, becomes.generatedMembers extracted]
    rfl
  rw [PlainClass.ExpandsAsWritten, expandSource_of_readSource parsed, List.flatMap_singleton,
    List.flatMap_singleton, becomes.output h, once, count, List.flatMap_singleton,
    becomes.diagnostics extracted nothing, String.ofList_toList]

theorem opened_int : TypeExpr.Opened (.simple "Int") [.laid true .ident "Int"] :=
  .of_primary
    ((TypeExpr.Canonical.plainSegment (n := .laid true .ident "Int") (.word (by decide))).named rfl)
    fun _ same => by
      cases same
      nofun

/-- A class with a member of each kind, and its expansion in full. -/
theorem expandSource_plain_public :
    PlainClass.Sound ⟨some "public", "A", [.stored .let "id" (.simple "Int") false,
        .stored .var "tags" (.array (.simple "Int")) true, .constant "version", .computed "size",
        .inferred "count"]⟩ ∧
      expandSource (Text.ofLines [
        "@Codable",
        "public class A \x7b",
        "    let id: Int",
        "    var tags: [Int]?",
        "    static let version: Int = 1",
        "    var size: Int \x7b 0 \x7d",
        "    var count = 0",
        "\x7d"]) 2 = .ok ⟨Text.ofLines [
        "public class A \x7b",
        "    let id: Int",
        "    var tags: [Int]?",
        "    static let version: Int = 1",
        "    var size: Int \x7b 0 \x7d",
        "    var count = 0",
        "",
        "  enum CodingKeys: String, CodingKey \x7b",
        "    case id",
        "    case tags",
        "  \x7d",
        "",
        "  public required init(from decoder: Decoder) throws \x7b",
        "    let container = try decoder.container(keyedBy: CodingKeys.self)",
        "    id = try container.decode(Int.self, forKey: .id)",
        "    tags = try container.decodeIfPresent([Int].self, forKey: .tags)",
        "  \x7d",
        "",
        "  public func encode(to encoder: Encoder) throws \x7b",
        "    var container = encoder.container(keyedBy: CodingKeys.self)",
        "    try container.encode(id, forKey: .id)",
        "    try container.encode(tags, forKey: .tags)",
        "  \x7d",
        "\x7d",
        "",
        "extension A: Codable \x7b",
        "\x7d"], 1, []⟩ := by
  have int : TypeExpr.IsWritten (.simple "Int") := TypeExpr.isWritten_iff.mpr opened_int.buildable
  have ints : TypeExpr.IsWritten (.optional (.array (.simple "Int"))) := by
    have array := opened_int.operand.single.array
    exact TypeExpr.isWritten_iff.mpr ((TypeExpr.Opened.of_primary array nofun).optional rfl).buildable
  have sound : PlainClass.Sound ⟨some "public", "A", [.stored .let "id" (.simple "Int") false,
      .stored .var "tags" (.array (.simple "Int")) true, .constant "version", .computed "size",
      .inferred "count"]⟩ := by
    refine ⟨by decide, by decide +kernel, by decide, ?_, ?_⟩
    · simp only [List.forall_mem_cons]
      refine ⟨⟨by decide +kernel, ?_, ?_⟩, ⟨by decide +kernel, ?_, by simp⟩,
        ⟨by decide +kernel, nofun, nofun⟩, ⟨by decide +kernel, nofun, nofun⟩,
        ⟨by decide +kernel, nofun, nofun⟩, List.forall_mem_nil _⟩
      · rintro _ ⟨⟩
        exact int
      · rintro _ _ _ ⟨⟩
        rfl
      · rintro _ ⟨⟩
        exact ints
    · simp only [List.dropLast, List.forall_mem_cons]
      refine ⟨?_, ?_, nofun, nofun, List.forall_mem_nil _⟩
      · rintro _ ⟨⟩
        decide
      · rintro _ ⟨⟩
        decide
  refine ⟨sound, (expandSource_plain sound 2).trans ?_⟩
  congr 2

/-- A class is not expanded so if its edits make another text of it. -/
theorem PlainClass.not_expandsAsWritten {c : PlainClass} {indentWidth : Nat}
    (other : (readSource c.source).toOption.all (fun ds =>
      Edit.applyAll (ds.flatMap (·.allEdits c.source.toList (.new indentWidth))) c.source.toList ≠
        c.headingLine.toList ++ c.bodyText ++
          ((if c.members.isEmpty then [] else ['\n']) ++
            (c.generatedLines indentWidth).flatMap (fun l => '\n' :: l.toList) ++ ['\n'] ++
          ('\x7d' :: ('\n' :: '\n' :: (("extension " ++ c.name ++ ": Codable \x7b").toList ++
            "\n\x7d".toList) ++ ['\n'])))) = true) :
    ¬ c.ExpandsAsWritten indentWidth := by
  intro expands
  cases parsed : readSource c.source with
  | error fault =>
    rw [ExpandsAsWritten, expandSource, parsed] at expands
    cases expands
  | ok ds =>
    rw [parsed] at other
    have output := (expandSource_of_readSource parsed indentWidth).symm.trans expands
    have same := congrArg String.toList (congrArg ExpandedSource.source (Except.ok.inj output))
    rw [String.toList_ofList, toList_expanded] at same
    exact absurd same (of_decide_eq_true other)

/-- Not every class of this shape is expanded so. If its name is a modifier keyword, `class` is
taken for a modifier; a type that ends in a keyword goes on with the next line; a question mark
behind a function type belongs to the type of its result; and a type in another spelling than the
canonical one is generated in the canonical one. -/
theorem expandSource_plain_unsound :
    ¬ PlainClass.ExpandsAsWritten ⟨none, "open", [.stored .let "a" (.simple "Int") false]⟩ 4 ∧
    ¬ PlainClass.ExpandsAsWritten
      ⟨none, "A", [.stored .let "a" (.simple "any") false, .constant "b"]⟩ 4 ∧
    ¬ PlainClass.ExpandsAsWritten
      ⟨none, "A", [.stored .let "f" (.function [] [] (.simple "Int")) true]⟩ 4 ∧
    ¬ PlainClass.ExpandsAsWritten
      ⟨none, "A", [.stored .let "d" (.simple "[String:Int]") false]⟩ 4 := by
  refine ⟨fun expands => ?_, fun expands => ?_, fun expands => ?_, fun expands => ?_⟩
  · have count : (expandSource (PlainClass.source
        ⟨none, "open", [.stored .let "a" (.simple "Int") false]⟩) 4).toOption.all
          (·.expanded ≠ 1) = true := by
      decide +kernel
    rw [expands] at count
    cases count
  · have warned : (expandSource (PlainClass.source
        ⟨none, "A", [.stored .let "a" (.simple "any") false, .constant "b"]⟩) 4).toOption.all
          (·.diagnostics ≠ []) = true := by
      decide +kernel
    rw [expands] at warned
    cases warned
  · exact PlainClass.not_expandsAsWritten (by decide +kernel) expands
  · exact PlainClass.not_expandsAsWritten (by decide +kernel) expands

end CodableSynthesis
