import CodableSynthesis.Proofs.Edits.Announced
import CodableSynthesis.Proofs.Layout.Sits

/-!
Where bodies stand, and where the edits of declarations lie.

* `Declaration.Body`: the body of a declaration, as what stands between two braces.
* `Declaration.Sits`: the attributes, the keyword and the body of a declaration are stretches of the
  source.
* `Members.layout`: so it is for all declarations nested in members, and the edits of these members
  lie within their text.
* `FileSpelled.layout`: the same for a file, with the extensions behind its declarations.

Edits have to be made in one pass, so they must not overlap. That they do not is proved along the
grammar: the edits of a member lie in the text of that member, and the texts of members follow one
another. In `Member.Laid` the two go together with one more fact, that the text of a member does not
end with white space. It is needed where a body is filled: the white space in front of the closing
brace is replaced, and must not reach back into a member.
-/

namespace CodableSynthesis

open Text (Position Span byteLength byteLength_append byteLength_cons trimEnd)
open Lexeme (EndsPlain)

/-- The body between two braces: `inside` stands between `front`, which ends with the opening brace,
and the closing brace. -/
structure Declaration.Body (source : List Char) (d : Declaration) (front inside back : List Char) :
    Prop where
  /-- The source around the body. -/
  made : source = front ++ (inside ++ '\x7d' :: back)
  /-- What is in front of the body ends with a brace. -/
  opens : front.getLast? = some '\x7b'
  /-- The opening brace is where its span says. -/
  opener : d.opener.stop = byteLength front
  /-- So is the beginning of the closing one. -/
  start : d.closer.start = byteLength (front ++ inside)
  /-- So is the end of the closing one. -/
  stop : d.closer.stop = byteLength (front ++ (inside ++ ['\x7d']))

/-- The attributes, the keyword and the body of a declaration sit in the source. The margin of
generated members is that of the line the keyword stands in. -/
structure Declaration.Sits (source : List Char) (d : Declaration) : Prop where
  attributes : ∀ a ∈ d.heading.attributes, a.Sits source
  /-- The keyword begins between two characters. -/
  keyword : ∃ front back, source = front ++ back ∧ d.heading.keyword.start = byteLength front
  body : ∃ front inside back, d.Body source front inside back

theorem Declaration.Body.slice {source front inside back : List Char} {d : Declaration}
    (h : d.Body source front inside back) :
    Text.slice d.opener.stop d.closer.start source = inside := by
  obtain ⟨rfl, -, opener, start, -⟩ := h
  rw [Text.slice, opener, start, Text.dropBytes_byteLength_append, byteLength_append,
    Nat.add_sub_cancel_left, Text.takeBytes_byteLength_append]

/-- Generated members replace all white space in front of the closing brace. -/
theorem Declaration.Body.insertion {source front inside back : List Char} {d : Declaration}
    (h : d.Body source front inside back) (indentWidth : Nat) (members : List String) :
    (Edit.insertion source indentWidth d members).Replaces source (front ++ trimEnd inside)
      (inside.reverse.takeWhile Text.isWhiteSpace).reverse ('\x7d' :: back) := by
  refine ⟨?_, ?_, ?_⟩
  · rw [List.append_assoc, ← List.append_assoc (trimEnd inside), Text.trimEnd_append_takeWhile,
      h.made]
  · rw [Edit.insertion, h.slice, h.opener, byteLength_append]
  · rw [List.append_assoc, Text.trimEnd_append_takeWhile]
    exact h.start

/-- The text `seen`, which begins at `p`, holds the members `ms`: they sit in the source, and their
edits lie within it. -/
structure Member.Laid (source : List Char) (p : Position) (seen : List Char) (ms : List Member) :
    Prop where
  /-- The text is empty or ends with no white space. -/
  ends : seen = [] ∨ EndsPlain seen
  /-- The declarations in it sit in the source. -/
  sits : ∀ d ∈ Declaration.nestedIn ms, d.Sits source
  /-- The edits for them lie within it. -/
  within : ∀ w name,
    Edit.Within p.offset (p.advance seen).offset (Declaration.editsIn source w name ms)

/-- The text `seen`, which begins at `p` and ends with a closing brace, holds the declaration
`d`. -/
structure Declaration.Laid (source : List Char) (p : Position) (seen : List Char)
    (d : Declaration) : Prop where
  ends : EndsPlain seen
  sits : ∀ n ∈ d.withNested, n.Sits source
  within : ∀ w name, Edit.Within p.offset (p.advance seen).offset (d.edits source w name)
  stop : d.stop = (p.advance seen).offset
  proper : p.offset < d.stop

variable {source : List Char} {p : Position} {cs : List Char}

theorem Placed.begins {front rest : List Token} {t : Token} (h : Placed p (front ++ t :: rest) cs)
    (stands : Rest source p cs) :
    ∃ before after, source = before ++ after ∧ t.span.start = byteLength before := by
  obtain ⟨seen, left, rfl, placed⟩ := h.split
  obtain ⟨gap, rest, rfl, -, -, -, span, -⟩ := placed.head
  obtain ⟨before, made, at_⟩ := stands.advance
  refine ⟨before ++ gap, t.chars ++ rest, by rw [made, List.append_assoc], ?_⟩
  rw [span, at_, ← Position.advance_append, ← Rest.offset_start]
  rfl

/-- The heading of a declaration and its opening brace. -/
theorem OpeningSpelled.layout {heading : Heading} {opener : Token} {ts body : List Token}
    (h : OpeningSpelled ts heading opener body) (placed : Placed p ts cs)
    (stands : Rest source p cs) :
    ∃ seen left, cs = seen ++ left ∧ Placed (p.advance seen) body left ∧
      seen.getLast? = some '\x7b' ∧ opener.span.stop = (p.advance seen).offset ∧
      (∀ a ∈ heading.attributes, a.Sits source) ∧
      (∃ front back, source = front ++ back ∧ heading.keyword.start = byteLength front) ∧
      Edit.Within p.offset opener.span.stop
        (heading.attributes.map fun a => Edit.removal source a.span) := by
  obtain @⟨attributes, _, _, _, _, t, keyword, opener, ts, mid, _, -, front, -, spelled, opens⟩ := h
  obtain @⟨_, _, _, mid', _, attributes, modifiers⟩ := front
  obtain ⟨toKeyword, made⟩ := modifiers.suffix
  obtain ⟨toOpener, rfl⟩ := spelled.suffix
  have reach : mid' = (toKeyword ++ keyword :: toOpener) ++ opener :: body := by
    rw [← made, List.append_assoc, List.cons_append]
  obtain ⟨sits, after, -, within⟩ := attributes.layout reach placed stands
  obtain ⟨skipped, toMid⟩ := attributes.suffix
  -- The keyword stands at a boundary of characters, which is what the margin is cut at.
  have begins : ∃ front back, source = front ++ back ∧ keyword.span.start = byteLength front := by
    have placed : Placed p ((skipped ++ toKeyword) ++
        keyword :: (toOpener ++ opener :: body)) cs := by
      rw [← toMid, reach] at placed
      simpa using placed
    exact placed.begins stands
  rw [← toMid, reach, ← List.append_assoc] at placed
  obtain ⟨seen, left, rfl, opened⟩ := placed.split
  obtain ⟨gap, left, rfl, -, -, sound, span, later⟩ := opened.head
  have brace : opener.chars = ['\x7b'] := sound.spelled.eq_mark (by rw [opens]; rfl)
  rw [brace] at span later
  refine ⟨seen ++ (gap ++ ['\x7b']), left, by simp [brace], ?_, ?_, ?_, sits,
    begins, within.widen after (Nat.le_refl _)⟩
  · rwa [Position.advance_append]
  · simp
  · rw [span, Position.advance_append p seen]
    rfl

/-- The brace behind members closes the body. -/
theorem Placed.closing (heading : Heading) (inner : List Member) {opener closer : Token}
    {before seen left : List Char} {rest : List Token}
    (h : Placed (p.advance seen) (closer :: rest) left) (closes : closer.kind = .closing .brace)
    (made : source = before ++ (seen ++ left)) (at_ : p = Position.start.advance before)
    (opens : before.getLast? = some '\x7b') (stop : opener.span.stop = p.offset) :
    ∃ gap back, left = gap ++ '\x7d' :: back ∧
      Placed (p.advance (seen ++ (gap ++ ['\x7d']))) rest back ∧
      closer.span.start = (p.advance (seen ++ gap)).offset ∧
      closer.span.stop = (p.advance (seen ++ (gap ++ ['\x7d']))).offset ∧
      Declaration.Body source ⟨heading, inner, opener.span, closer.span⟩ before (seen ++ gap)
        back := by
  obtain ⟨gap, back, rfl, -, -, sound, span, later⟩ := h.head
  have brace : closer.chars = ['\x7d'] := sound.spelled.eq_mark (by rw [closes]; rfl)
  rw [brace, ← Position.advance_append, ← Position.advance_append] at span
  rw [brace, ← Position.advance_append] at later
  have start : closer.span.start = (p.advance (seen ++ gap)).offset := by rw [span]; rfl
  have ends : closer.span.stop = (p.advance (seen ++ (gap ++ ['\x7d']))).offset := by rw [span]; rfl
  have made : source = before ++ (seen ++ gap ++ '\x7d' :: back) := by simp [made, brace]
  refine ⟨gap, back, by simp [brace], later, start, ends, made, opens, ?_, ?_, ?_⟩
  · rw [stop, at_, Rest.offset_start]
  · rw [start, at_, ← Position.advance_append, Rest.offset_start]
  · rw [ends, at_, ← Position.advance_append, Rest.offset_start, List.append_assoc]

/-- A declaration is laid out if its heading and its members are. -/
theorem Declaration.laid {heading : Heading} {inner : List Member} {opener closer : Token}
    {front seen gap back before : List Char}
    (attributes : ∀ a ∈ heading.attributes, a.Sits source)
    (keyword : ∃ front back, source = front ++ back ∧ heading.keyword.start = byteLength front)
    (removals : Edit.Within p.offset opener.span.stop
      (heading.attributes.map fun a => Edit.removal source a.span))
    (members : Member.Laid source (p.advance front) seen inner)
    (opened : front.getLast? = some '\x7b')
    (openerStop : opener.span.stop = (p.advance front).offset)
    (closerStart : closer.span.start = ((p.advance front).advance (seen ++ gap)).offset)
    (closerStop :
      closer.span.stop = ((p.advance front).advance (seen ++ (gap ++ ['\x7d']))).offset)
    (body : Body source ⟨heading, inner, opener.span, closer.span⟩ before (seen ++ gap) back) :
    Declaration.Laid source p (front ++ (seen ++ (gap ++ ['\x7d'])))
      ⟨heading, inner, opener.span, closer.span⟩ := by
  have stop : closer.span.stop = (p.advance (front ++ (seen ++ (gap ++ ['\x7d'])))).offset := by
    rw [closerStop, ← Position.advance_append]
  -- The opening brace is at least one character long.
  have longer : p.offset < opener.span.stop := by
    have := Text.byteLength_pos (show front ≠ [] by rintro rfl; cases opened)
    rw [openerStop, Position.offset_advance]
    omega
  have size : '\x7d'.utf8Size = 1 := rfl
  have before_ : byteLength before = opener.span.stop := body.opener.symm
  rw [Position.offset_advance, ← openerStop] at closerStart closerStop
  simp only [byteLength_append, byteLength_cons] at closerStart closerStop
  refine ⟨?_, ?_, ?_, stop, ?_⟩
  · exact ((EndsPlain.append ⟨'\x7d', rfl, by decide⟩ gap).append seen).append front
  · rw [withNested]
    exact List.forall_mem_cons.mpr ⟨⟨attributes, keyword, _, _, _, body⟩, members.sits⟩
  · intro w name
    have taken := removals.sublist ((List.filter_sublist (p := fun a =>
      (Capability.named? (Attribute.simpleName a.name)).isSome)).map _)
    have nested := members.within w name
    rw [← openerStop] at nested
    have both := taken.append nested
    rw [edits, expand_attributes, expand_members, List.map_map, ← stop]
    split
    · rw [List.append_nil]
      refine both.widen (Nat.le_refl _) ?_
      rw [Position.offset_advance, ← openerStop]
      omega
    · -- the insertion, which stands between the last token of the body and the closing brace
      obtain ⟨kept, trimmed⟩ := Text.trimEnd_append members.ends gap
      have replaces := body.insertion w.indentWidth
        (generatedMembers w name ⟨heading, inner, opener.span, closer.span⟩)
      have start := replaces.start
      have forward := replaces.forward
      rw [trimmed, byteLength_append, byteLength_append] at start
      have ends : (Edit.insertion source w.indentWidth ⟨heading, inner, opener.span, closer.span⟩
        (generatedMembers w name ⟨heading, inner, opener.span, closer.span⟩)).stop =
          closer.span.start := rfl
      rw [ends] at forward
      refine both.snoc ?_ forward (by omega) (by omega)
      rw [Position.offset_advance, ← openerStop]
      omega
  · rw [Declaration.stop, closerStop]
    omega

/-- The members `ms` are laid out in every text that the tokens stand in. This is the statement that
goes through the induction on members. -/
def Member.AlwaysLaid (source : List Char) (ts : List Token) (ms : List Member)
    (rest : List Token) : Prop :=
  ∀ {p : Position} {cs : List Char}, Placed p ts cs → Rest source p cs →
    ∃ seen left, cs = seen ++ left ∧ Placed (p.advance seen) rest left ∧ Laid source p seen ms

/-- A declaration is laid out between its heading and its closing brace. -/
theorem OpeningSpelled.laid {heading : Heading} {inner : List Member} {opener closer : Token}
    {ts body rest : List Token} (opening : OpeningSpelled ts heading opener body)
    (members : Member.AlwaysLaid source body inner (closer :: rest))
    (closes : closer.kind = .closing .brace) (placed : Placed p ts cs) (stands : Rest source p cs) :
    ∃ seen left, cs = seen ++ left ∧ Placed (p.advance seen) rest left ∧
      Declaration.Laid source p seen ⟨heading, inner, opener.span, closer.span⟩ := by
  obtain ⟨front, left, rfl, placed, opened, stop, attributes, keyword, removals⟩ :=
    opening.layout placed stands
  obtain ⟨seen, left, rfl, placed, laid⟩ := members placed stands.advance
  obtain ⟨before, made, at_⟩ := stands
  obtain ⟨gap, back, rfl, placed, closerStart, closerStop, sits⟩ :=
    placed.closing heading inner closes (made.trans (List.append_assoc _ _ _).symm)
      (by rw [at_, Position.advance_append]) (by rw [List.getLast?_append, opened]; rfl) stop
  refine ⟨front ++ (seen ++ (gap ++ ['\x7d'])), back, by simp, ?_, ?_⟩
  · rwa [Position.advance_append]
  · exact Declaration.laid attributes keyword removals laid opened stop closerStart closerStop sits

namespace Member.Laid

variable {seen later : List Char} {ms : List Member}

/-- Members behind a text that ends with no white space and holds nothing. -/
theorem behind (h : Laid source (p.advance seen) later ms) (ends : EndsPlain seen) :
    Laid source p (seen ++ later) ms := by
  refine ⟨.inr ?_, h.sits, fun w name => ?_⟩
  · rcases h.ends with rfl | plain
    · rwa [List.append_nil]
    · exact plain.append seen
  · rw [Position.advance_append]
    refine (h.within w name).widen ?_ (Nat.le_refl _)
    rw [Position.offset_advance]
    exact Nat.le_add_right _ _

theorem leaf {m : Member} (h : Laid source p seen ms) (none : m.type? = none) :
    Laid source p seen (m :: ms) := by
  cases m with
  | type d => cases none
  | «variable» | other => exact ⟨h.ends, h.sits, h.within⟩

theorem type {d : Declaration} (here : d.Laid source p seen)
    (h : Laid source (p.advance seen) later ms) :
    Laid source p (seen ++ later) (.type d :: ms) := by
  refine ⟨(h.behind here.ends).ends, ?_, fun w name => ?_⟩
  · rw [Declaration.nestedIn]
    exact List.forall_mem_append.mpr ⟨here.sits, h.sits⟩
  · rw [Declaration.editsIn, Position.advance_append]
    exact (here.within w _).append (h.within w name)

end Member.Laid

theorem Members.closes {ts rest : List Token} {ms : List Member} {closer : Token}
    (h : Members ts ms closer rest) : closer.kind = .closing .brace := by
  induction h with
  | close closes => exact closes
  | semicolon _ _ ih | leaf _ _ _ ih | type _ _ _ _ _ ih => exact ih

/-- Members sit in the source, and their edits lie within their text. -/
theorem Members.layout {ts rest : List Token} {ms : List Member} {closer : Token}
    (h : Members ts ms closer rest) : Member.AlwaysLaid source ts ms (closer :: rest) := by
  induction h with
  | close =>
    intro p cs placed _
    refine ⟨[], cs, rfl, placed, .inl rfl, nofun, fun _ _ => ?_⟩
    rw [Declaration.editsIn]
    exact .nil (Nat.le_refl _)
  | semicolon _ _ ih =>
    intro p cs placed stands
    obtain ⟨seen, left, rfl, placed, ends, -⟩ := @Placed.split_last [] _ _ _ _ placed
    obtain ⟨later, left, rfl, placed, laid⟩ := ih placed stands.advance
    exact ⟨seen ++ later, left, by simp, by rwa [Position.advance_append], laid.behind ends⟩
  | leaf _ leaf _ ih =>
    intro p cs placed stands
    obtain ⟨front, last, made, -⟩ := leaf.consumes
    rw [made] at placed
    obtain ⟨seen, left, rfl, placed, ends, -⟩ := placed.split_last
    obtain ⟨later, left, rfl, placed, laid⟩ := ih placed stands.advance
    exact ⟨seen ++ later, left, by simp, by rwa [Position.advance_append],
      (laid.behind ends).leaf leaf.type?_eq_none⟩
  | type _ opening inner _ innerIh ih =>
    intro p cs placed stands
    obtain ⟨seen, left, rfl, placed, here⟩ := opening.laid innerIh inner.closes placed stands
    obtain ⟨later, left, rfl, placed, laid⟩ := ih placed stands.advance
    exact ⟨seen ++ later, left, by simp, by rwa [Position.advance_append], laid.type here⟩

/-! ### Files -/

/-- The declarations of a file sit in the source, and their edits follow one another in it. -/
theorem FileSpelled.layout {ts : List Token} {ms : List Member} (h : FileSpelled ts ms)
    (placed : Placed p ts cs) (stands : Rest source p cs) :
    (∀ d ∈ ms.filterMap Member.type?, ∀ n ∈ d.withNested, n.Sits source) ∧
      ∀ w, Edit.Within p.offset (byteLength source + 1)
        ((ms.filterMap Member.type?).flatMap (·.allEdits source w)) := by
  induction h generalizing p cs with
  | nil =>
    obtain ⟨before, made, at_⟩ := stands
    refine ⟨nofun, fun w => .nil ?_⟩
    rw [made, at_, Rest.offset_start, byteLength_append]
    omega
  | @semicolon ms t ts _ _ ih =>
    obtain ⟨seen, left, rfl, later⟩ := Placed.split (show Placed p ([t] ++ ts) cs from placed)
    obtain ⟨sits, within⟩ := ih later stands.advance
    refine ⟨sits, fun w => (within w).widen ?_ (Nat.le_refl _)⟩
    rw [Position.offset_advance]
    exact Nat.le_add_right _ _
  | leaf _ leaf _ ih =>
    obtain ⟨front, made⟩ := leaf.consumes.leaves.suffix
    rw [← made] at placed
    obtain ⟨seen, left, rfl, later⟩ := placed.split
    obtain ⟨sits, within⟩ := ih later stands.advance
    rw [List.filterMap_cons_none leaf.type?_eq_none]
    refine ⟨sits, fun w => (within w).widen ?_ (Nat.le_refl _)⟩
    rw [Position.offset_advance]
    exact Nat.le_add_right _ _
  | @type heading _ _ _ _ _ _ _ _ _ opening inner _ ih =>
    obtain ⟨seen, left, rfl, placed, here⟩ :=
      opening.laid inner.layout inner.closes placed stands
    obtain ⟨sits, within⟩ := ih placed stands.advance
    simp only [List.filterMap_cons, Member.type?]
    refine ⟨List.forall_mem_cons.mpr ⟨here.sits, sits⟩, fun w => ?_⟩
    rw [List.flatMap_cons, Declaration.allEdits]
    have edits := here.within w heading.name
    have later := within w
    have inside := stands.advance.offset_le
    have proper := here.proper
    rw [← here.stop] at edits later inside
    split
    · rw [List.append_nil]
      exact edits.append later
    · rw [List.append_assoc, List.singleton_append]
      refine edits.followed (later.cons (Nat.lt_succ_of_le inside) edits.le ?_ proper ?_)
        (Nat.le_succ_of_le inside) (List.forall_mem_cons.mpr ⟨?_, later.starts⟩)
      all_goals exact Nat.le_refl _

end CodableSynthesis
