import CodableSynthesis.Proofs.Grammar.Ends
import CodableSynthesis.Proofs.Layout.Bodies
import CodableSynthesis.Proofs.Rewriting.Changes

/-!
The changes of an expansion along the tokens of the source, one token or attribute after another.

* `Fills`, `Follows`: what may be put in front of a token, and behind it.
* `Walk`: changes that are made along some tokens, in this order.
* `Members.walk`: the changes within members can be made along their tokens.
* `FileSpelled.walk`: so can the changes for a file.

A walk has two steps: a token is kept, with what is put next to it, or an attribute is dropped as a
whole. The grammar says which tokens are attributes; a walk needs only their first and last token,
and that what comes next goes on with an attribute or a name.

The flag `ready` says whether an attribute may be dropped in front of the tokens. It is there
because of what stands in front of the attribute: a token that ends a member does not mind what
comes next, but a dot would.
-/

namespace CodableSynthesis

open Text (Position)

/-- What may be put in front of a token. -/
inductive Fills (t : Token) : List Change → Prop
  | nothing : Fills t []
  /-- Members, in front of the closing brace of their class. -/
  | fill {d : Declaration} {members : List String} :
      t.kind = .closing .brace → d.closer = t.span → Fills t [.fill d members]

/-- What may be put behind a token. -/
inductive Follows (t : Token) : List Change → Prop
  | nothing : Follows t []
  /-- Extensions, behind the closing brace of a declaration. -/
  | follow {d : Declaration} {extensions : List String} :
      t.kind = .closing .brace → d.closer = t.span → Follows t [.follow d extensions]

/-- The tokens go on where an attribute may be taken out in front of them: with an attribute or with
a name without backticks. -/
def GoesOn (ts : List Token) : Prop :=
  ∃ n ∈ ts.head?, n.kind = .atSign ∨ n.IsPlainName

/-- `Walk ready ts cs`: the changes `cs` are made along the tokens `ts`, in this order. If `ready`
holds, then an attribute may be taken out in front of all of them. -/
inductive Walk : Bool → List Token → List Change → Prop
  /-- No tokens are left, and no changes. -/
  | done {ready : Bool} : Walk ready [] []
  /-- A token is kept. If an attribute may be dropped behind it, it has to end a member. -/
  | keep {ready next : Bool} {t : Token} {ts : List Token} {fills follows cs : List Change} :
      Fills t fills → Follows t follows → (next = true → AtAttribute ts → t.EndsMember) →
      Walk next ts cs → Walk ready (t :: ts) (fills ++ (follows ++ cs))
  /-- An attribute is dropped, from its sign to its last token. -/
  | drop {a : Attribute} {sign last : Token} {inner ts : List Token} {cs : List Change} :
      sign.kind = .atSign → a.first = sign.span → a.last = last.span → GoesOn ts →
      Walk true ts cs → Walk true (sign :: (inner ++ last :: ts)) (.drop a :: cs)

namespace Walk

variable {ready : Bool} {t : Token} {ts mid rest : List Token} {cs : List Change}

theorem plain (h : Walk true ts cs) (ends : AtAttribute ts → t.EndsMember) :
    Walk ready (t :: ts) cs :=
  keep .nothing .nothing (fun _ => ends) h

/-- Tokens that no attribute is taken out behind are kept. -/
theorem inside (h : Walk false ts cs) : Walk ready (t :: ts) cs :=
  @keep ready false _ _ _ _ _ .nothing .nothing (fun never => by cases never) h

theorem consume (h : Walk true rest cs) (consumes : Consumes AtAttribute ts rest) :
    Walk ready ts cs := by
  obtain ⟨front, last, rfl, ends⟩ := consumes
  induction front generalizing ready with
  | nil => exact h.plain ends
  | cons t front ih => exact inside ih

theorem leave (h : Walk true rest cs) (leaves : Leaves AtAttribute ts rest) : Walk true ts cs := by
  rcases leaves with rfl | consumes
  · exact h
  · exact h.consume consumes

end Walk

variable {ts mid rest : List Token} {cs later : List Change}

/-! ### Along the grammar

The order of the changes is that of the text, because the grammar is followed: attributes, then the
types nested in the body, then what is put in front of the closing brace. -/

theorem Token.isPlainName_of_mem {t : Token} {listed : List String} (ident : t.kind = .ident)
    (mem : t.text ∈ listed) (plain : ∀ s ∈ listed, s.toList.head? ≠ some '`') : t.IsPlainName :=
  ⟨ident, plain _ mem⟩

/-- The keyword of a declaration is one of those listed. -/
theorem DeclarationKind.listed {t : Token} {kind : DeclarationKind}
    (h : ofToken? t = some kind) : t.kind = .ident ∧ t.text ∈ all.map keyword := by
  rw [ofToken?] at h
  split at h
  · next ident =>
    have known := List.find?_some h
    exact ⟨ident, List.mem_map.mpr ⟨kind, List.mem_of_find?_eq_some h, eq_of_beq known⟩⟩
  · cases h

theorem DeclarationKind.isPlainName {t : Token} {kind : DeclarationKind}
    (h : ofToken? t = some kind) : t.IsPlainName := by
  obtain ⟨ident, listed⟩ := listed h
  exact Token.isPlainName_of_mem ident listed (by decide)

theorem Modifier.isPlainName {t next : Token} (h : isModifier t next = true) : t.IsPlainName := by
  have ident := kind_of_isModifier h
  rw [isModifier] at h
  split at h
  · next isClass =>
    simp only [Token.isWord, Bool.and_eq_true, beq_iff_eq] at isClass
    exact Token.isPlainName_of_mem ident (List.mem_singleton.mpr isClass.2) (by decide)
  · simp only [Token.isWordIn, Bool.and_eq_true, List.contains_iff_mem] at h
    exact Token.isPlainName_of_mem ident h.1.2 (by decide)

theorem Modifier.AllSpelled.goesOn {words : List String} {keyword : Token}
    (h : AllSpelled ts words (keyword :: rest)) (plain : keyword.IsPlainName) : GoesOn ts := by
  cases h with
  | nil => exact ⟨keyword, rfl, .inr plain⟩
  | cons starts => exact ⟨_, rfl, .inr (isPlainName starts)⟩

/-- Of the attributes in front of a declaration, those that are expanded are dropped. -/
theorem Attribute.AllSpelled.walk {as : List Attribute} (h : AllSpelled ts as rest)
    (goesOn : GoesOn rest) (next : Walk true rest cs) :
    Walk true ts
        ((as.filter fun a => (Capability.named? (simpleName a.name)).isSome).map .drop ++ cs) ∧
      GoesOn ts := by
  induction h with
  | nil => exact ⟨next, goesOn⟩
  | @cons ts mid _ a as spelled _ ih =>
    obtain ⟨walk, goesOn⟩ := ih goesOn next
    obtain ⟨sign, inner, last, rfl, kind, first, ends⟩ := spelled.reach
    refine ⟨?_, sign, rfl, .inl kind⟩
    cases known : (Capability.named? (simpleName a.name)).isSome with
    | true =>
      rw [List.filter_cons_of_pos (by simp [known])]
      exact .drop kind first ends goesOn walk
    | false =>
      rw [List.filter_cons_of_neg (by simp [known])]
      exact walk.consume spelled.consumes

/-- The attributes of a declaration are in front of what stands in its body. -/
theorem OpeningSpelled.walk {heading : Heading} {opener : Token} {inner : List Member}
    {closer : Text.Span} (h : OpeningSpelled ts heading opener rest) (next : Walk true rest cs) :
    Walk true ts
      ((Declaration.registered ⟨heading, inner, opener.span, closer⟩).map .drop ++ cs) := by
  have opens := h.consumes
  obtain @⟨_, _, kind, _, _, t, keyword, opener, _, _, _, -, front, isKind, spelled, brace⟩ := h
  obtain @⟨_, _, _, mid, _, attributes, modifiers⟩ := front
  refine (attributes.walk (modifiers.goesOn (DeclarationKind.isPlainName isKind)) ?_).1
  refine next.leave (modifiers.leaves.consume ?_).leaves
  have ends : Consumes AtAttribute (opener :: rest) rest :=
    .token fun _ => .inr (.inr (.inr (.inr (.inr (.inr brace)))))
  exact (ends.behind spelled.suffix).cons

theorem Declaration.fills {w : Writer} {name : String} {d : Declaration} {t : Token}
    (closes : t.kind = .closing .brace) (same : d.closer = t.span) :
    Fills t (d.ownFill w name) := by
  rw [ownFill]
  split
  · exact .fill closes same
  · exact .nothing

theorem Declaration.follows {w : Writer} {d : Declaration} {t : Token}
    (closes : t.kind = .closing .brace) (same : d.closer = t.span) : Follows t (d.ownFollow w) := by
  rw [ownFollow]
  split
  · exact .follow closes same
  · exact .nothing

theorem Declaration.changesIn_leaf {w : Writer} {name : String} {m : Member} {ms : List Member}
    (h : m.type? = none) : changesIn w name (m :: ms) = changesIn w name ms := by
  cases m with
  | type d => cases h
  | «variable» | other => rw [changesIn]

/-- The changes within members are made along their tokens. The induction is on the members, and in
it on the types nested in them. -/
theorem Members.walk {ms : List Member} {closer : Token} (h : Members ts ms closer rest)
    (w : Writer) (name : String) (next : Walk true (closer :: rest) later) :
    Walk true ts (Declaration.changesIn w name ms ++ later) := by
  induction h generalizing name later with
  | close => exact next
  | semicolon kind _ ih =>
    exact (ih name next).plain fun _ => .inr (.inr (.inr (.inr (.inr (.inl kind)))))
  | leaf _ leaf _ ih =>
    rw [Declaration.changesIn_leaf leaf.type?_eq_none]
    exact (ih name next).consume leaf.consumes
  | type _ opening members _ innerIh ih =>
    rw [Declaration.changesIn, Declaration.changes, List.append_assoc, List.append_assoc,
      List.append_assoc]
    refine opening.walk (innerIh _ ?_)
    have closes := members.closes
    exact @Walk.keep _ _ _ _ _ [] _ (Declaration.fills closes rfl) .nothing
      (fun _ _ => .inr (.inl ⟨_, closes⟩)) (ih name next)

/-- The changes for a file are made along its tokens. -/
theorem FileSpelled.walk {ms : List Member} (h : FileSpelled ts ms) (w : Writer) :
    Walk true ts ((ms.filterMap Member.type?).flatMap (·.allChanges w)) := by
  induction h with
  | nil => exact .done
  | semicolon kind _ ih =>
    exact ih.plain fun _ => .inr (.inr (.inr (.inr (.inr (.inl kind)))))
  | leaf _ leaf _ ih =>
    rw [List.filterMap_cons_none leaf.type?_eq_none]
    exact ih.consume leaf.consumes
  | type _ opening members _ ih =>
    simp only [List.filterMap_cons, Member.type?]
    rw [List.flatMap_cons, Declaration.allChanges, Declaration.changes, List.append_assoc,
      List.append_assoc, List.append_assoc]
    refine opening.walk (members.walk w _ ?_)
    have closes := members.closes
    exact .keep (Declaration.fills closes rfl) (Declaration.follows closes rfl)
      (fun _ _ => .inr (.inl ⟨_, closes⟩)) ih

end CodableSynthesis
