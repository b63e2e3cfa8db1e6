import CodableSynthesis.Proofs.Repeated.Delivered

/-!
The headings of an expanded source. An annotated declaration loses the attributes that are expanded;
what is left is read as the same heading without them, unless a dot stands directly in front of such
an attribute or generic arguments that were left open there would end behind the keyword.

* `Attribute.isExpanded`: the attributes that are taken out.
* `Attribute.AllSpelled.delivers`: the attributes that are left are read as such.
* `OpeningSpelled.parts`, `OpeningSpelled.of_parts`: an opening is taken apart and put together.
* `OpeningSpelled.delivers`: the whole heading is read again.

Two things can go wrong where an attribute is taken out, and both lie in front of it. A type that
ends in a dot would go on with the keyword; and an angle bracket that was not the opening of generic
arguments could become one if the sign of the attribute no longer stands in the way. The hypotheses
`dots` and `apart` exclude just these.

`Seam` says what has to be kept along the tokens for everything in front to be read as before. It is
carried through every step, up to the beginning of the file.
-/

namespace CodableSynthesis

open Text (Position)

variable {source : List Char} {w : Writer} {all ts us mid rest rest' : List Token} {t : Token}
  {cs later : List Change} {P : List Token → Prop}

/-! ### Reflagged tokens

What does not depend on the flags of the first token. Attributes and modifiers do not; the tokens
behind them do not, either, as long as one of these stands in front. -/

namespace Reflagged

/-- Flags may be changed twice. -/
theorem trans {us vs ws : List Token} (h : Reflagged us vs) (h' : Reflagged vs ws) :
    Reflagged us ws := by
  cases h with
  | nil => exact h'
  | cons n b =>
    cases h' with
    | cons n' b' => exact .cons n' b'

/-- Whether generic arguments end does not depend on the flags of the first token. -/
theorem closesArguments {us vs mid : List Token} {depth : Nat} (h : Reflagged us vs)
    (closes : Group.ClosesArguments depth vs mid) : ∃ mid, Group.ClosesArguments depth us mid := by
  cases h with
  | nil => exact ⟨_, closes⟩
  | cons n b =>
    cases closes with
    | last greater => exact ⟨_, .last greater⟩
    | outer greater later => exact ⟨_, .outer greater later⟩
    | inner less later => exact ⟨_, .inner less later⟩
    | plain isArgument later => exact ⟨_, .plain isArgument later⟩

theorem begins {us vs : List Token} (h : Reflagged us vs) (begins : ∃ t ∈ us.head?, t.Begins) :
    ∃ t ∈ vs.head?, t.Begins := by
  cases h with
  | nil => exact begins
  | cons n b =>
    obtain ⟨_, ⟨⟩, begins⟩ := begins
    exact ⟨_, rfl, begins⟩

/-- Attributes are read as before, whatever the flags of the first token. -/
theorem allSpelled {us vs : List Token} {as : List Attribute} (h : Reflagged us vs)
    (spelled : Attribute.AllSpelled us as mid) :
    ∃ mid', Reflagged mid mid' ∧ Attribute.AllSpelled vs as mid' := by
  cases spelled with
  | nil noSign =>
    refine ⟨vs, h, .nil ?_⟩
    cases h with
    | nil => exact noSign
    | @cons t ts n b =>
      rintro _ ⟨⟩
      exact noSign t rfl
  | cons spelled later =>
    obtain ⟨sign, ident, path, arguments⟩ := spelled
    cases h with
    | cons n b =>
      exact ⟨mid, .refl mid, .cons (.mk sign ident path arguments) later⟩

end Reflagged

/-! ### Attributes -/

/-- Whether an attribute is expanded. Only the last segment of its name counts. -/
def Attribute.isExpanded (a : Attribute) : Bool :=
  (Capability.named? (simpleName a.name)).isSome

/-- Of the attributes in front of a declaration, those that are expanded are dropped. The induction
is on the attributes: each is either kept, or dropped, which moves the flags of its sign to what
follows. -/
theorem Attribute.AllSpelled.delivers {as : List Attribute} (h : AllSpelled ts as mid)
    (within : ts <:+ all) (goesOn : GoesOn mid)
    (dots : ∀ a ∈ as, a.isExpanded = true → ∀ b sign more, b :: sign :: more <:+ all →
      sign.span = a.first → b.kind ≠ .dot)
    (next : Delivers source w true mid cs P)
    (seam : ∀ us, P us → Seam all mid us ∧ ∃ u ∈ us.head?, u.Begins ∧ u.kind ≠ .atSign)
    (apart : (∃ a ∈ as, a.isExpanded = true) →
      ∀ us, P us → ∀ depth mid, ¬ Group.ClosesArguments depth us mid) :
    Delivers source w true ts ((as.filter isExpanded).map .drop ++ cs) fun us =>
      Seam all ts us ∧ (∃ u ∈ us.head?, u.Begins) ∧ ∃ us₀ us₁, P us₀ ∧ Reflagged us₀ us₁ ∧
        AllSpelled us (as.filter fun a => !a.isExpanded) us₁ := by
  induction h with
  | @nil ts noSign =>
    refine next.mono fun us holds => ?_
    obtain ⟨s, u, head, begins, other⟩ := seam us holds
    refine ⟨s, ⟨u, head, begins⟩, us, us, holds, .refl us, .nil fun v head' => ?_⟩
    obtain rfl := Option.some_inj.mp (head.symm.trans head')
    exact other
  | @cons ts left mid a as spelled later ih =>
    have consumes : Consumes AtAttribute ts left := spelled.consumes
    have behind := consumes.suffix.trans within
    obtain ⟨-, goesOn'⟩ := later.walk goesOn next.walk
    have next := ih behind goesOn (fun b mem => dots b (.tail _ mem)) next seam
      fun ⟨b, mem, known⟩ => apart ⟨b, .tail _ mem, known⟩
    cases known : a.isExpanded with
    | false =>
      rw [List.filter_cons_of_neg (by simp [known]), List.filter_cons_of_pos (by simp [known])]
      refine (next.consume consumes).mono ?_
      rintro _ ⟨us, rfl, s, -, us₀, us₁, holds, reflagged, attributes⟩
      have here := spelled.grafted s within (List.suffix_refl _)
      rw [graft_self] at here
      refine ⟨s.front consumes.suffix within (consumes.ne (List.suffix_refl _)), ?_, us₀, us₁,
        holds, reflagged, .cons here attributes⟩
      obtain ⟨sign, more, made, kind, -⟩ := here.head
      exact ⟨sign, by rw [made]; rfl, .inl kind⟩
    | true =>
      rw [List.filter_cons_of_pos (by simp [known]), List.filter_cons_of_neg (by simp [known])]
      obtain ⟨sign, inner, last, rfl, kind, first, ends⟩ := spelled.reach
      refine (next.drop kind first ends goesOn').mono ?_
      rintro us ⟨vs, again, ⟨-, begins, us₀, us₁, holds, reflagged, attributes⟩, line⟩
      -- Without its sign nothing ends arguments in front of it. What follows must not close them,
      -- be it another attribute or what stands behind them all.
      have apart := apart ⟨a, .head _, known⟩ us₀ holds
      obtain ⟨us₂, again', attributes⟩ := again.allSpelled attributes
      obtain ⟨u, head, begins⟩ := again.begins begins
      obtain ⟨more, rfl⟩ := List.head?_eq_some_iff.mp head
      refine ⟨.dropped kind begins (fun isLine => line isLine u head) ?_ ?_, ⟨u, head, begins⟩,
        us₀, us₂, holds, reflagged.trans again', attributes⟩
      · exact fun b found => dots a (.head _) known b sign _ found first.symm
      · intro depth mid closes
        generalize as.filter (fun a => !a.isExpanded) = kept at attributes
        generalize same : u :: more = vs at attributes closes
        cases attributes with
        | nil =>
          obtain ⟨mid, closes⟩ := (reflagged.trans again').closesArguments closes
          exact apart _ _ closes
        | cons spelled =>
          obtain ⟨sign, more, rfl, kind, -⟩ := spelled.head
          exact Group.not_closesArguments (.inl kind) closes

/-! ### Headings -/

namespace Modifier

theorem begins {next : Token} (h : isModifier t next = true) : t.Begins := by
  rw [isModifier] at h
  refine .inr ?_
  split at h
  · next isClass =>
    simp only [Token.isWord, Bool.and_eq_true, beq_iff_eq] at isClass
    simp [Token.isWordIn, isClass, declarationWords]
  · simp only [Token.isWordIn, Bool.and_eq_true, List.contains_iff_mem] at h
    simp [Token.isWordIn, h.1.1, h.1.2]

/-- Modifiers are read as before, whatever the flags of the first token. -/
theorem AllSpelled.reflagged {words : List String} {vs : List Token}
    (h : AllSpelled us words mid) (again : Reflagged us vs) :
    ∃ mid', Reflagged mid mid' ∧ AllSpelled vs words mid' := by
  cases h with
  | nil stops =>
    refine ⟨vs, again, .nil ?_⟩
    cases again with
    | nil => exact stops
    | @cons t ts n b =>
      rintro ⟨_, next, more, made, starts⟩
      cases made
      exact stops ⟨t, next, more, rfl, starts⟩
  | cons starts detail later =>
    cases again with
    | cons n b => exact ⟨mid, .refl mid, .cons starts detail later⟩

/-- Arguments that end behind modifiers end behind the word that those stand in front of. -/
theorem AllSpelled.closesArguments {words : List String} {depth : Nat} {left : List Token}
    (h : AllSpelled us words mid) (closes : Group.ClosesArguments depth us left) :
    Group.ClosesArguments depth mid left := by
  induction h with
  | nil => exact closes
  | @cons t n ts mid _ _ starts detail later ih =>
    have behind := closes.behind (by rw [Group.isArgumentToken, kind_of_isModifier starts])
    refine ih ?_
    cases detail with
    | none => exact behind
    | some opens ident closing =>
      exact ((behind.behind (by rw [Group.isArgumentToken, opens]; rfl)).behind
        (by rw [Group.isArgumentToken, ident])).behind (by rw [Group.isArgumentToken, closing]; rfl)

end Modifier

theorem DeclarationKind.begins {kind : DeclarationKind} (h : ofToken? t = some kind) :
    t.Begins := by
  obtain ⟨ident, listed⟩ := DeclarationKind.listed h
  have known : t.text ∈ Modifier.declarationWords :=
    (by decide : ∀ s ∈ all.map keyword, s ∈ Modifier.declarationWords) _ listed
  exact .inr (by simp [Token.isWordIn, ident, known])

/-- Modifiers and a keyword begin with a name that begins a declaration. -/
theorem Modifier.AllSpelled.head {words : List String} {keyword : Token}
    {kind : DeclarationKind} (h : Modifier.AllSpelled us words (keyword :: rest))
    (isKind : DeclarationKind.ofToken? keyword = some kind) :
    ∃ u ∈ us.head?, u.IsPlainName ∧ u.Begins := by
  cases h with
  | nil => exact ⟨keyword, rfl, DeclarationKind.isPlainName isKind, DeclarationKind.begins isKind⟩
  | cons starts => exact ⟨_, rfl, Modifier.isPlainName starts, Modifier.begins starts⟩

namespace OpeningSpelled

variable {heading : Heading} {opener : Token} {body : List Token}

/-- An opening has modifiers and a heading behind its attributes. -/
theorem parts (h : OpeningSpelled ts heading opener body) :
    ∃ mid keyword after, Attribute.AllSpelled ts heading.attributes mid ∧
      Modifier.AllSpelled mid heading.modifiers (keyword :: after) ∧
      DeclarationKind.ofToken? keyword = some heading.kind ∧ keyword.span = heading.keyword ∧
      Heading.Spelled heading.kind after heading.name heading.inherited (opener :: body) ∧
      opener.kind = .opening .brace := by
  obtain ⟨-, ⟨attributes, modifiers⟩, isKind, spelled, brace⟩ := h
  exact ⟨_, _, _, attributes, modifiers, isKind, rfl, spelled, brace⟩

/-- Attributes, modifiers and a heading make an opening. -/
theorem of_parts {keyword : Token} {after : List Token}
    (attributes : Attribute.AllSpelled ts heading.attributes mid)
    (modifiers : Modifier.AllSpelled mid heading.modifiers (keyword :: after))
    (isKind : DeclarationKind.ofToken? keyword = some heading.kind)
    (same : keyword.span = heading.keyword)
    (spelled : Heading.Spelled heading.kind after heading.name heading.inherited (opener :: body))
    (brace : opener.kind = .opening .brace) : OpeningSpelled ts heading opener body := by
  obtain ⟨as, words, kind, name, inherited, span⟩ := heading
  obtain rfl : keyword.span = span := same
  obtain ⟨u, head, plain, -⟩ := modifiers.head isKind
  obtain ⟨t, ts, rfl, noPound⟩ : ∃ t more, ts = t :: more ∧ t.kind ≠ .pound := by
    cases attributes with
    | nil =>
      obtain ⟨more, rfl⟩ := List.head?_eq_some_iff.mp head
      exact ⟨u, more, rfl, by rw [plain.1]; nofun⟩
    | cons first =>
      obtain ⟨sign, more, rfl, kind, -⟩ := first.head
      exact ⟨sign, more, rfl, by rw [kind]; nofun⟩
  exact .mk noPound (.mk attributes modifiers) isKind spelled brace

/-- An opening without attributes, behind the attributes of an opening. -/
theorem behindAttributes (h : OpeningSpelled ts heading opener body) :
    ∃ mid, Attribute.AllSpelled ts heading.attributes mid ∧
      OpeningSpelled mid { heading with attributes := [] } opener body := by
  obtain ⟨mid, keyword, after, attributes, modifiers, isKind, same, spelled, brace⟩ := h.parts
  obtain ⟨u, head, plain, -⟩ := modifiers.head isKind
  refine ⟨mid, attributes, .of_parts (.nil fun v head' => ?_) modifiers isKind same spelled brace⟩
  obtain rfl := Option.some_inj.mp (head.symm.trans head')
  rw [plain.1]
  nofun

theorem withAttributes {as : List Attribute}
    (h : OpeningSpelled mid { heading with attributes := [] } opener body)
    (attributes : Attribute.AllSpelled ts as mid) :
    OpeningSpelled ts { heading with attributes := as } opener body := by
  obtain ⟨_, keyword, after, ⟨⟩, modifiers, isKind, same, spelled, brace⟩ := h.parts
  exact .of_parts attributes modifiers isKind same spelled brace

/-- An opening is read as before, whatever the flags of its first token. -/
theorem reflagged (h : OpeningSpelled us { heading with attributes := [] } opener body)
    {vs : List Token} (again : Reflagged us vs) :
    OpeningSpelled vs { heading with attributes := [] } opener body := by
  obtain ⟨_, keyword, after, attributes, modifiers, isKind, same, spelled, brace⟩ := h.parts
  obtain ⟨_, again, attributes⟩ := again.allSpelled attributes
  obtain ⟨_, again, modifiers⟩ := modifiers.reflagged again
  cases again with
  | cons n b => exact .of_parts attributes modifiers isKind same spelled brace

/-- Without attributes it begins with a name. -/
theorem head (h : OpeningSpelled us { heading with attributes := [] } opener body) :
    ∃ u ∈ us.head?, u.IsPlainName ∧ u.Begins := by
  obtain ⟨_, keyword, after, ⟨⟩, modifiers, isKind, same, spelled, brace⟩ := h.parts
  exact modifiers.head isKind

theorem begins (h : OpeningSpelled us heading opener body) : ∃ u ∈ us.head?, u.Begins := by
  obtain ⟨_, keyword, after, attributes, modifiers, isKind, -⟩ := h.parts
  generalize heading.attributes = as at attributes
  cases attributes with
  | nil =>
    obtain ⟨u, head, -, begins⟩ := modifiers.head isKind
    exact ⟨u, head, begins⟩
  | cons first =>
    obtain ⟨sign, more, rfl, kind, -⟩ := first.head
    exact ⟨sign, rfl, .inl kind⟩

theorem closesArguments {depth : Nat} {left : List Token}
    (h : OpeningSpelled us { heading with attributes := [] } opener body)
    (closes : Group.ClosesArguments depth us left) :
    ∃ keyword after, keyword :: after <:+ us ∧ keyword.span = heading.keyword ∧
      Group.ClosesArguments depth after left := by
  obtain ⟨_, keyword, after, ⟨⟩, modifiers, isKind, same, spelled, brace⟩ := h.parts
  refine ⟨keyword, after, modifiers.suffix, same, (modifiers.closesArguments closes).behind ?_⟩
  rw [Group.isArgumentToken, (DeclarationKind.isPlainName isKind).1]

/-- An opening loses the attributes that are expanded. -/
theorem delivers (h : OpeningSpelled ts heading opener body) (within : ts <:+ all)
    (dots : ∀ a ∈ heading.attributes, a.isExpanded = true → ∀ b sign more,
      b :: sign :: more <:+ all → sign.span = a.first → b.kind ≠ .dot)
    (apart : (∃ a ∈ heading.attributes, a.isExpanded = true) → ∀ keyword after,
      keyword :: after <:+ all → keyword.span = heading.keyword →
        ∀ mid, ¬ Group.ClosesArguments 0 after mid)
    (next : Delivers source w true body cs P) (seam : ∀ us, P us → Seam all body us) :
    Delivers source w true ts ((heading.attributes.filter Attribute.isExpanded).map .drop ++ cs)
      fun us => Seam all ts us ∧ ∃ us', P us' ∧ OpeningSpelled us
        { heading with attributes := heading.attributes.filter fun a => !a.isExpanded }
        opener us' := by
  obtain ⟨mid, attributes, bare⟩ := h.behindAttributes
  obtain ⟨u, head, plain, begins⟩ := bare.head
  have consumes : Consumes AtAttribute mid body := bare.consumes
  have suffix := consumes.suffix
  have more := consumes.ne (List.suffix_refl _)
  have within' := attributes.suffix.trans within
  refine (attributes.delivers within ⟨u, head, .inr plain⟩ dots (next.consume consumes)
    ?_ ?_).mono ?_
  · rintro _ ⟨us, rfl, holds⟩
    refine ⟨(seam us holds).front suffix within' more, u, ?_, begins, by rw [plain.1]; nofun⟩
    rw [graft_head? suffix more, head]
    rfl
  · rintro expanded _ ⟨us, rfl, holds⟩ depth left closes
    obtain ⟨left, closes⟩ := (seam us holds).closesArguments suffix closes
    obtain ⟨keyword, after, found, same, closes⟩ := bare.closesArguments closes
    obtain ⟨left, closes⟩ := closes.sooner (Nat.zero_le _)
    exact apart expanded keyword after (found.trans within') same left closes
  · rintro us ⟨s, -, _, us₁, ⟨us', rfl, holds⟩, reflagged, attributes⟩
    refine ⟨s, us', holds, withAttributes ?_ attributes⟩
    have grafted := bare.grafted (seam us' holds) within' (List.suffix_refl _)
    rw [graft_self] at grafted
    exact grafted.reflagged reflagged

end OpeningSpelled

end CodableSynthesis
