import CodableSynthesis.Proofs.Grammar.Declarations

/-!
Stored properties and headings as they are spelled most plainly: without attributes and modifiers,
one property a declaration. Sources that are made from data are shown to be files by these lemmas,
which need nothing of the grammar of types but that the annotation is spelled by some tokens.
-/

namespace CodableSynthesis

variable {t n : Token} {ts rest : List Token}

theorem Specifier.isWord_of_ofToken? {specifier : Specifier} (h : ofToken? t = some specifier) :
    t.isWord "var" = true ∨ t.isWord "let" = true := by
  rw [ofToken?] at h
  split at h
  · exact .inl ‹_›
  · split at h
    · exact .inr ‹_›
    · cases h

/-- A word that is neither `class` nor a modifier keyword is no modifier. -/
theorem Modifier.not_starts (isClass : t.isWord "class" = false)
    (keyword : t.isWordIn keywords = false) : ¬ Starts (t :: ts) := by
  rintro ⟨_, next, _, ⟨⟩, isModifier⟩
  rw [Modifier.isModifier, isClass, keyword] at isModifier
  cases isModifier

theorem Specifier.not_starts {specifier : Specifier} (h : ofToken? t = some specifier) :
    ¬ Modifier.Starts (t :: ts) := by
  rcases isWord_of_ofToken? h with isWord | isWord <;>
  · simp only [Token.isWord, Bool.and_eq_true, beq_iff_eq] at isWord
    refine Modifier.not_starts ?_ ?_
    · simp [Token.isWord, isWord.2]
    · simp [Token.isWordIn, isWord.2, Modifier.keywords]

/-- No attribute and no modifier in front of a name. -/
theorem PrefixSpelled.none (ident : t.kind = .ident) (noModifier : ¬ Modifier.Starts (t :: ts)) :
    PrefixSpelled (t :: ts) [] [] (t :: ts) :=
  .mk (.nil (by rintro _ ⟨⟩; rw [ident]; nofun)) (.nil noModifier)

theorem Specifier.kind_of_ofToken? {specifier : Specifier} (h : ofToken? t = some specifier) :
    t.kind = .ident := by
  rcases isWord_of_ofToken? h with isWord | isWord <;> exact Token.kind_of_isWord isWord

/-- A property ends before the tokens: neither a value, accessors nor further properties follow. -/
def EndsProperty (rest : List Token) : Prop :=
  ∀ u ∈ rest.head?, u.kind ≠ .equals ∧ u.kind ≠ .opening .brace ∧ u.kind ≠ .comma

/-- A stored property with its type. -/
theorem LeafSpelled.stored {specifier : Specifier} {keyword colon : Token} {type : TypeExpr}
    (isSpecifier : Specifier.ofToken? keyword = some specifier) (ident : n.kind = .ident)
    (isColon : colon.kind = .colon) (spells : TypeExpr.Spells (.type type) ts rest)
    (ends : EndsProperty rest) :
    LeafSpelled (keyword :: n :: colon :: ts)
      (.variable ⟨[], [], specifier, ⟨.ofName n.text, some type, false, none, n.span⟩, [],
        keyword.span⟩) rest := by
  have kind := Specifier.kind_of_ofToken? isSpecifier
  have front := PrefixSpelled.none kind (@Specifier.not_starts _ (n :: colon :: ts) _ isSpecifier)
  refine .property (by rw [kind]; nofun) front isSpecifier (.mk (.mk (.name ident)
    (.some isColon spells) (.none fun u head => (ends u head).1) (.none ?_)) (.nil ?_))
  · rintro ⟨u, head, opens⟩
    exact (ends u head).2.1 opens
  · exact fun u head => (ends u head).2.2

end CodableSynthesis
