import CodableSynthesis.Proofs.Joining.Moved

/-!
The edits for a declaration whose text stands between two others. They are those for the text by
itself, counted behind what stands in front of it, if that ends a line and nothing is taken out at
the very end of the text.

* `Declaration.Settled`: what is asked of a declaration.
* `Declaration.allEdits_amid`: the law.
* `FileSpelled.settled`: the declarations of a file are settled.

An edit looks at the source in three ways: at the white space behind an attribute, at the white
space in front of a closing brace, and at the line of a keyword. The first may run into the text
behind, if the attribute were the last of its text; the last may begin in the text in front, if that
did not end a line. The conditions exclude just these two.
-/

namespace CodableSynthesis

open Text (Position Span byteLength byteLength_append isWhiteSpace leadingSpace)

/-! ### Texts between texts -/

namespace Text

variable {front cs : List Char} {n : Nat}

/-- Bytes are counted from the end of the text in front. -/
theorem dropBytes_add (front cs : List Char) (n : Nat) :
    dropBytes (n + byteLength front) (front ++ cs) = dropBytes n cs := by
  induction front with
  | nil => rfl
  | cons c front ih =>
    obtain ⟨m, size⟩ : ∃ m, n + byteLength (c :: front) = m + 1 :=
      Nat.exists_eq_succ_of_ne_zero (by have := c.utf8Size_pos; rw [byteLength_cons]; omega)
    rw [size, List.cons_append, dropBytes, ← ih]
    rw [byteLength_cons] at size
    congr 1
    omega

theorem takeBytes_add (front cs : List Char) (n : Nat) :
    takeBytes (n + byteLength front) (front ++ cs) = front ++ takeBytes n cs := by
  induction front with
  | nil => rfl
  | cons c front ih =>
    obtain ⟨m, size⟩ : ∃ m, n + byteLength (c :: front) = m + 1 :=
      Nat.exists_eq_succ_of_ne_zero (by have := c.utf8Size_pos; rw [byteLength_cons]; omega)
    rw [size, List.cons_append, takeBytes, List.cons_append, ← ih]
    rw [byteLength_cons] at size
    congr 2
    omega

/-- The text behind does not matter within the text. -/
theorem takeBytes_append_of_le (le : n ≤ byteLength cs) (back : List Char) :
    takeBytes n (cs ++ back) = takeBytes n cs := by
  induction cs generalizing n with
  | nil =>
    obtain rfl := Nat.le_zero.mp le
    rw [List.nil_append, takeBytes_zero, takeBytes_zero]
  | cons c cs ih =>
    cases n with
    | zero => rw [takeBytes_zero, takeBytes_zero]
    | succ n =>
      rw [byteLength_cons] at le
      rw [List.cons_append, takeBytes, takeBytes, ih (by omega)]

/-- A text that ends its line has no part in the line that follows. -/
theorem lastLine_append (h : EndsLine front) (cs : List Char) :
    lastLine (front ++ cs) = lastLine cs := by
  rcases h with rfl | last
  · rfl
  · obtain ⟨front, rfl⟩ := List.getLast?_eq_some_iff.mp last
    rw [lastLine, lastLine, List.reverse_append, List.reverse_append, List.reverse_singleton,
      List.singleton_append, List.takeWhile_append]
    split
    · next all =>
      rw [List.takeWhile_cons_of_neg (by decide), List.append_nil]
      exact congrArg _ (List.takeWhile_sublist _ |>.eq_of_length all).symm
    · rfl

/-- White space that ends within a text ends there. -/
theorem leadingSpace_append (h : cs.dropWhile isWhiteSpace ≠ []) (back : List Char) :
    leadingSpace (cs ++ back) = leadingSpace cs := by
  rw [leadingSpace, List.takeWhile_append, if_neg]
  · rfl
  · intro all
    have whole := (List.takeWhile_sublist _).eq_of_length all
    have split := List.takeWhile_append_dropWhile (p := isWhiteSpace) (l := cs)
    rw [whole] at split
    exact h (List.append_right_eq_self.mp split)

end Text

/-! ### Edits between texts -/

/-- An edit counted behind another text. -/
def Edit.shift (bytes : Nat) (e : Edit) : Edit :=
  ⟨e.start + bytes, e.stop + bytes, e.text⟩

variable {front text back : List Char} {lineFeeds : Nat} {w : Writer} {name : String}

/-- A declaration is where its text says, and what is taken out with it ends before the text. -/
structure Declaration.Settled (text : List Char) (d : Declaration) : Prop where
  sits : d.Sits text
  removals : ∀ a ∈ d.registered, (Edit.removal text a.span).stop < byteLength text

/-- Taking out an attribute of a text that other texts stand around. -/
theorem Attribute.Sits.removal_amid {a : Attribute} (h : a.Sits text)
    (inside : (Edit.removal text a.span).stop < byteLength text) :
    Edit.removal (front ++ (text ++ back))
        (a.mapSpans (Span.shift (byteLength front) lineFeeds)).span =
      (Edit.removal text a.span).shift (byteLength front) := by
  obtain ⟨before, body, after, -, -, -, stop, made, replaces⟩ := h.removal
  have more : after.dropWhile isWhiteSpace ≠ [] := by
    intro nothing
    have whole := replaces.made
    rw [nothing, List.append_nil] at whole
    rw [replaces.stop, ← whole] at inside
    exact Nat.lt_irrefl _ inside
  have here : Text.dropBytes a.span.stop text = after := by
    rw [show a.span.stop = _ from stop, made, ← List.append_assoc, Text.dropBytes_byteLength_append]
  have there : Text.dropBytes (a.span.stop + byteLength front) (front ++ (text ++ back)) =
      after ++ back := by
    rw [Text.dropBytes_add, show a.span.stop = _ from stop, made, ← List.append_assoc before,
      List.append_assoc, Text.dropBytes_byteLength_append]
  have span : (a.mapSpans (Span.shift (byteLength front) lineFeeds)).span =
      a.span.shift (byteLength front) lineFeeds := rfl
  rw [span, Edit.removal, Edit.removal, Span.shift, here, there, Text.leadingSpace_append more,
    Edit.shift, Nat.add_right_comm]

namespace Declaration

variable {d : Declaration}

/-- A body in a text that other texts stand around. -/
theorem Body.amid {before inside after : List Char} (h : d.Body text before inside after) :
    (d.shift (byteLength front) lineFeeds).Body (front ++ (text ++ back)) (front ++ before) inside
      (after ++ back) := by
  obtain ⟨rfl, opens, opener, start, stop⟩ := h
  refine ⟨by simp, by rw [List.getLast?_append, opens]; rfl, ?_, ?_, ?_⟩
  · rw [shift_opener, Span.shift, opener, byteLength_append]
    exact Nat.add_comm _ _
  · rw [shift_closer, Span.shift, start, List.append_assoc, byteLength_append front]
    exact Nat.add_comm _ _
  · rw [shift_closer, Span.shift, stop, List.append_assoc, byteLength_append front]
    exact Nat.add_comm _ _

/-- Filling a body of a text that other texts stand around. -/
theorem Settled.insertion_amid (h : d.Settled text) (ends : Text.EndsLine front)
    (indentWidth : Nat) (members : List String) :
    Edit.insertion (front ++ (text ++ back)) indentWidth (d.shift (byteLength front) lineFeeds)
        members =
      (Edit.insertion text indentWidth d members).shift (byteLength front) := by
  obtain ⟨-, ⟨above, below, made, keyword⟩, before, inside, after, body⟩ := h.sits
  have within : d.heading.keyword.start ≤ byteLength text := by
    rw [keyword, made, byteLength_append]
    exact Nat.le_add_right _ _
  have line : Text.lastLine (Text.takeBytes
      (d.shift (byteLength front) lineFeeds).heading.keyword.start (front ++ (text ++ back))) =
      Text.lastLine (Text.takeBytes d.heading.keyword.start text) := by
    rw [shift_heading, Heading.mapSpans, Span.shift, Text.takeBytes_add, Text.lastLine_append ends,
      Text.takeBytes_append_of_le within]
  rw [Edit.insertion, Edit.insertion, line, body.slice, body.amid.slice, shift_opener, shift_closer,
    Edit.shift, Span.shift, Span.shift, Nat.add_right_comm]

mutual

/-- The edits within a declaration of a text that other texts stand around. The recursion is that of
the edits, over a declaration and its members. -/
theorem edits_amid (ends : Text.EndsLine front) (name : String) : ∀ d : Declaration,
    (∀ n ∈ d.withNested, n.Settled text) →
    (d.shift (byteLength front) lineFeeds).edits (front ++ (text ++ back)) w name =
      (d.edits text w name).map (Edit.shift (byteLength front))
  | ⟨heading, members, opener, closer⟩, settled => by
    rw [withNested] at settled
    obtain ⟨here, nested⟩ := List.forall_mem_cons.mp settled
    have attributes := @expand_attributes w name
      (shift (byteLength front) lineFeeds ⟨heading, members, opener, closer⟩)
    have filled := @expand_members w name
      (shift (byteLength front) lineFeeds ⟨heading, members, opener, closer⟩)
    have insertion := @Settled.insertion_amid front _ back lineFeeds _ here ends w.indentWidth
    rw [registered_shift] at attributes
    rw [generatedMembers_shift] at filled
    rw [shift_mk] at attributes filled insertion
    rw [shift_mk, edits, edits, attributes, filled, editsIn_amid ends name members nested,
      expand_attributes, expand_members, List.map_append, List.map_append, List.map_map,
      List.map_map, List.map_map, List.map_map]
    refine congr (congrArg _ (congrArg (· ++ _) (List.map_congr_left fun a mem => ?_))) ?_
    · exact (here.sits.attributes a (List.mem_filter.mp mem).1).removal_amid
        (here.removals a mem)
    · split
      · rfl
      · rw [List.map_singleton, insertion]

theorem editsIn_amid (ends : Text.EndsLine front) (name : String) : ∀ ms : List Member,
    (∀ n ∈ nestedIn ms, n.Settled text) →
    editsIn (front ++ (text ++ back)) w name
        (Member.mapAllSpans (Span.shift (byteLength front) lineFeeds) ms) =
      (editsIn text w name ms).map (Edit.shift (byteLength front))
  | [], _ => rfl
  | .type d :: ms, settled => by
    rw [nestedIn] at settled
    obtain ⟨here, later⟩ := List.forall_mem_append.mp settled
    have same : d.mapSpans (Span.shift (byteLength front) lineFeeds) =
      d.shift (byteLength front) lineFeeds := rfl
    rw [Member.mapAllSpans, Member.mapSpans, editsIn, editsIn, List.map_append, same, shift_heading,
      Heading.mapSpans, edits_amid ends _ d here, editsIn_amid ends name ms later]
  | .variable _ :: ms, settled | .other .. :: ms, settled => by
    rw [Member.mapAllSpans, Member.mapSpans, editsIn, editsIn, editsIn_amid ends name ms settled]

end

/-- The edits for a declaration of a text that other texts stand around. -/
theorem allEdits_amid (ends : Text.EndsLine front)
    (settled : ∀ n ∈ d.withNested, n.Settled text) :
    (d.shift (byteLength front) lineFeeds).allEdits (front ++ (text ++ back)) w =
      (d.allEdits text w).map (Edit.shift (byteLength front)) := by
  have extensions : ((d.shift (byteLength front) lineFeeds).expansions w).flatMap (·.extensions) =
      (d.expansions w).flatMap (·.extensions) := by
    rw [allExtensions, allExtensions, annotated, annotated, shift_heading, Heading.mapSpans,
      annotatedAs_shift, List.flatMap_map]
    exact List.flatMap_congr fun _ _ => generatedExtensions_shift
  rw [allEdits, allEdits, extensions, shift_heading, Heading.mapSpans, edits_amid ends _ d settled,
    List.map_append]
  refine congrArg _ ?_
  split
  · rfl
  · rw [List.map_singleton, Edit.extension, Edit.extension, stop, shift_closer]
    rfl

end Declaration

/-! ### Declarations of files -/

/-- The edits within the declarations of a file end before the text does. -/
theorem FileSpelled.edits_stop {source : List Char} {ts : List Token} {ms : List Member}
    {p : Position} {cs : List Char} (h : FileSpelled ts ms) (placed : Placed p ts cs)
    (stands : Rest source p cs) (w : Writer) :
    ∀ d ∈ ms.filterMap Member.type?, ∀ name, ∀ e ∈ d.edits source w name,
      e.stop < byteLength source := by
  induction h generalizing p cs with
  | nil => exact List.forall_mem_nil _
  | @semicolon ms t ts _ _ ih =>
    obtain ⟨seen, left, rfl, later⟩ := Placed.split (show Placed p ([t] ++ ts) cs from placed)
    exact ih later stands.advance
  | leaf _ leaf _ ih =>
    obtain ⟨front, made⟩ := leaf.consumes.leaves.suffix
    rw [← made] at placed
    obtain ⟨seen, left, rfl, later⟩ := placed.split
    rw [List.filterMap_cons_none leaf.type?_eq_none]
    exact ih later stands.advance
  | type _ opening inner _ ih =>
    obtain ⟨seen, left, rfl, placed, here⟩ :=
      opening.laid inner.layout inner.closes placed stands
    rw [filterMap_type]
    refine List.forall_mem_cons.mpr ⟨fun name e mem => ?_, ih placed stands.advance⟩
    exact Nat.lt_of_lt_of_le ((here.within w name).stops e mem) stands.advance.offset_le

/-- Each attribute that is expanded is taken out by one of the edits. -/
theorem Declaration.removal_mem {d n : Declaration} {a : Attribute} (nested : n ∈ d.withNested)
    (mem : a ∈ n.registered) : Edit.removal text a.span ∈ d.edits text w d.heading.name := by
  have annotated : n ∈ d.annotated.map (·.2) := by
    rw [annotated_snd]
    exact List.mem_filter.mpr ⟨nested, isAnnotated_iff.mpr (List.ne_nil_of_mem mem)⟩
  obtain ⟨⟨name, _⟩, entry, rfl⟩ := List.mem_map.mp annotated
  refine (perm_edits text w _ d).mem_iff.mpr (List.mem_flatMap.mpr ⟨_, entry, ?_⟩)
  exact List.mem_append_left _ (List.mem_map_of_mem mem)

/-- The declarations of a file are settled. -/
theorem FileSpelled.settled {ts : List Token} {ms : List Member} (h : FileSpelled ts ms)
    (placed : Placed .start ts text) :
    ∀ d ∈ ms.filterMap Member.type?, ∀ n ∈ d.withNested, n.Settled text := by
  intro d here n nested
  refine ⟨(h.layout placed Rest.start).1 d here n nested, fun a mem => ?_⟩
  exact h.edits_stop placed Rest.start (.new 0) d here _ _ (Declaration.removal_mem nested mem)

end CodableSynthesis
