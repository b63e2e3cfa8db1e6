import CodableSynthesis.Proofs.Joining.Phrases
import CodableSynthesis.Proofs.Respelling.Classes

/-!
Headings and members in front of a seam. They are read as before, whatever stands behind it, and so
they are in front of a closing brace, where every reader stops.

* `OpeningSpelled.grafted`, `LeafSpelled.grafted`: the laws for headings and for members that are no
  types.
* `OpeningSpelled.followed`, `LeafSpelled.followed`: more tokens behind a closing brace change
  nothing.

Two cases of a member need a word. Attributes and modifiers directly before a closing brace are a
member named after that brace; if another token comes in front of the brace, the member is gone, so
this case is excluded by a hypothesis. And whether a word is a modifier depends on the token behind
it, which may be the one that changes (`Modifier.not_starts_graft`).
-/

namespace CodableSynthesis

variable {all ts mid us rest rest' : List Token} {t : Token}

/-! ### Headings and members -/

namespace Heading

/-- Inherited types are read alike in front of a seam. -/
theorem TypesSpelled.grafted {types : List TypeExpr} (h : TypesSpelled ts types us)
    (s : Seam all rest rest') (within : ts <:+ all) (inside : rest <:+ us) :
    TypesSpelled (graft rest rest' ts) types (graft rest rest' us) := by
  induction h with
  | last type next =>
    exact .last (type.grafted s within inside) (s.not_kind ⟨nofun, nofun⟩ inside next)
  | cons type comma later ih =>
    have left := inside.trans later.consumes.suffix
    have type' := type.grafted s within (suffix_behind left)
    rw [graft_cons left] at type'
    exact .cons type' comma (ih ((List.suffix_cons _ _).trans (type.suffix.trans within)) inside)

theorem InheritedSpelled.grafted {types : List TypeExpr} (h : InheritedSpelled ts types us)
    (s : Seam all rest rest') (within : ts <:+ all) (inside : rest <:+ us) :
    InheritedSpelled (graft rest rest' ts) types (graft rest rest' us) := by
  cases h with
  | none absent => exact .none (s.not_kind ⟨nofun, nofun⟩ inside absent)
  | some colon types =>
    have left := inside.trans types.consumes.suffix
    rw [graft_cons left]
    exact .some colon (types.grafted s ((List.suffix_cons _ _).trans within) inside)

/-- A generic clause is read alike. -/
theorem Generics.grafted (h : Generics ts us) (s : Seam all rest rest') (inside : rest <:+ us) :
    Generics (graft rest rest' ts) (graft rest rest' us) := by
  cases h with
  | none absent => exact .none (s.not_kind ⟨nofun, nofun⟩ inside absent)
  | some less closes =>
    rw [graft_cons (inside.trans closes.suffix)]
    exact .some less (closes.grafted inside)

/-- Requirements end at the same brace. -/
theorem ToBrace.grafted (h : ToBrace ts us) (inside : rest <:+ us) (proper : us ≠ rest) :
    ToBrace (graft rest rest' ts) (graft rest rest' us) := by
  induction h with
  | @stop t ts opens =>
    have head : (graft rest rest' (t :: ts)).head? = some t :=
      graft_head? inside proper
    obtain ⟨more, made⟩ := List.head?_eq_some_iff.mp head
    rw [made]
    exact .stop opens
  | group opens noBrace closes later ih =>
    have behind := inside.trans later.suffix
    rw [graft_cons (behind.trans closes.suffix)]
    exact .group opens noBrace (closes.grafted behind) (ih inside proper)
  | plain noOpening later ih =>
    rw [graft_cons (inside.trans later.suffix)]
    exact .plain noOpening (ih inside proper)

theorem Requirements.grafted (h : Requirements ts us) (inside : rest <:+ us) (proper : us ≠ rest) :
    Requirements (graft rest rest' ts) (graft rest rest' us) := by
  cases h with
  | none absent => exact .none (by rwa [graft_head? inside proper])
  | some isWhere toBrace =>
    rw [graft_cons (inside.trans toBrace.suffix)]
    exact .some isWhere (toBrace.grafted inside proper)

/-- The name of a declaration is read alike. -/
theorem NameSpelled.grafted {kind : DeclarationKind} {name : String}
    (h : NameSpelled kind ts name us) (s : Seam all rest rest') (within : ts <:+ all)
    (inside : rest <:+ us) : NameSpelled kind (graft rest rest' ts) name (graft rest rest' us) := by
  cases h with
  | extended type => exact .extended (type.grafted s within inside)
  | name named ident => rw [graft_cons inside]; exact .name named ident

/-- A heading is read alike; it ends at a brace, in front of the seam. -/
theorem Spelled.grafted {kind : DeclarationKind} {name : String} {inherited : List TypeExpr}
    (h : Spelled kind ts name inherited us) (s : Seam all rest rest') (within : ts <:+ all)
    (inside : rest <:+ us) (proper : us ≠ rest) :
    Spelled kind (graft rest rest' ts) name inherited (graft rest rest' us) := by
  obtain ⟨named, generics, types, requirements⟩ := h
  have behindName := named.consumes.suffix
  have behindGenerics := generics.leaves.suffix.trans behindName
  have atRequirements := inside.trans requirements.suffix
  have atTypes := atRequirements.trans types.leaves.suffix
  have atGenerics := atTypes.trans generics.leaves.suffix
  exact .mk (named.grafted s within atGenerics) (generics.grafted s atTypes)
    (types.grafted s (behindGenerics.trans within) atRequirements)
    (requirements.grafted inside proper)

end Heading

/-- What stands in front of a declaration is read alike, if what is left begins as before. -/
theorem PrefixSpelled.grafted {attributes : List Attribute} {modifiers : List String}
    (h : PrefixSpelled ts attributes modifiers us) (s : Seam all rest rest') (within : ts <:+ all)
    (inside : rest <:+ us) (head : (graft rest rest' us).head? = us.head?)
    (stops : ¬ Modifier.Starts (graft rest rest' us))
    (noDetail : ¬ Modifier.StartsDetail us → ¬ Modifier.StartsDetail (graft rest rest' us)) :
    PrefixSpelled (graft rest rest' ts) attributes modifiers (graft rest rest' us) := by
  obtain ⟨attributes, modifiers⟩ := h
  exact .mk (attributes.grafted s within (inside.trans modifiers.suffix))
    (modifiers.grafted inside head stops noDetail)

theorem Modifier.not_startsDetail (kind : t.kind ≠ .opening .parenthesis) :
    ¬ StartsDetail (t :: ts) := by
  rintro ⟨_, _, _, _, ⟨⟩, opens, -⟩
  exact kind opens

theorem Modifier.not_starts_kind (kind : t.kind ≠ .ident) : ¬ Starts (t :: ts) := by
  rintro ⟨_, _, _, ⟨⟩, starts⟩
  exact kind (kind_of_isModifier starts)

theorem PrefixSpelled.not_starts {attributes : List Attribute} {modifiers : List String}
    (h : PrefixSpelled ts attributes modifiers us) : ¬ Modifier.Starts us := by
  obtain ⟨-, modifiers⟩ := h
  induction modifiers with
  | nil stops => exact stops
  | cons _ _ _ ih => exact ih

theorem Modifier.not_starts_congr {us us' : List Token} (head : us'.head? = us.head?)
    (none : ¬ Starts (t :: us)) : ¬ Starts (t :: us') := by
  rintro ⟨_, n, more, made, starts⟩
  cases made
  obtain ⟨_, rfl⟩ := List.head?_eq_some_iff.mp head.symm
  exact none ⟨t, n, _, rfl, starts⟩

/-- A word that is no modifier is none in front of the seam. -/
theorem Modifier.not_starts_graft (s : Seam all rest rest') (within : t :: us <:+ all)
    (inside : rest <:+ us) (other : t.IsOtherWord) (none : ¬ Starts (t :: us)) :
    ¬ Starts (t :: graft rest rest' us) := by
  have noClass : t.isWord "class" = false := by
    by_contra isClass
    simp only [Bool.not_eq_false, Token.isWord, Bool.and_eq_true, beq_iff_eq] at isClass
    have := other.1
    rw [DeclarationKind.ofToken?, if_pos isClass.1, isClass.2] at this
    cases this
  by_cases whole : us = rest
  · subst whole
    rw [graft_self]
    rcases s.head with head | ⟨v, here, u, head, renews⟩
    · exact not_starts_congr head none
    · obtain ⟨more, rfl⟩ := List.head?_eq_some_iff.mp here
      -- Of the modifiers, only `class` asks which word comes next.
      rintro ⟨_, n, _, ⟨⟩, starts⟩
      have keyword : t.isWordIn keywords = true := by
        rw [isModifier, noClass] at starts
        simp only [Bool.false_eq_true, if_false, Bool.and_eq_true] at starts
        exact starts.1
      rcases renews.old with sign | ⟨closes, -⟩
      · refine none ⟨t, v, more, rfl, ?_⟩
        rw [isModifier, noClass, keyword, sign]
        rfl
      · have ends := (renews.last t within).2 closes
        simp only [Token.isWordIn, Bool.and_eq_true, List.contains_iff_mem] at keyword
        simp [Token.reachesOn, Token.isWordIn, keyword] at ends
  · exact not_starts_congr (graft_head? inside whole) none

/-- A parenthesis that begins a member of its own is no detail. -/
theorem Skipping.Other.not_detail {word : Token} (h : Other word ts us) (inside : rest <:+ us)
    (none : ¬ Modifier.StartsDetail (word :: ts)) :
    ¬ Modifier.StartsDetail (word :: graft rest rest' ts) := by
  by_cases opens : word.kind = .opening .parenthesis
  · cases h with
    | semicolon kind => rw [opens] at kind; cases kind
    | plain _ noOpening => exact absurd opens (noOpening _)
    | @group b u mid _ opens' block later =>
      have behind := inside.trans later.suffix
      obtain ⟨inner, rfl⟩ := block.ends_last
      obtain ⟨c, closing⟩ : ∃ c, u.kind = .closing c := ⟨_, block.kind _ rfl⟩
      rw [graft_behind inner (suffix_behind behind), graft_cons behind]
      generalize graft rest rest' mid = left
      rintro ⟨_, x, y, more, made, _, ident, closes⟩
      obtain ⟨rfl, made⟩ := List.cons.inj made
      match inner with
      | [] =>
        cases made
        rw [ident] at closing
        cases closing
      | [a] =>
        cases made
        exact none ⟨_, _, _, _, rfl, opens, ident, closes⟩
      | a :: b :: inner =>
        cases made
        exact none ⟨_, _, _, _, rfl, opens, ident, closes⟩
  · exact Modifier.not_startsDetail opens

/-- A member that is no type is read alike in front of the seam, unless it ends with attributes in
front of a brace that does not stand there any more. -/
theorem LeafSpelled.grafted {m : Member} (h : LeafSpelled ts m us) (s : Seam all rest rest')
    (signed : Signed ts) (within : ts <:+ all) (inside : rest <:+ us)
    (dangles : ∀ t ∈ us.head?, t.kind = .closing .brace → m = .other t.text t.span →
      (graft rest rest' us).head? = us.head?) :
    LeafSpelled (graft rest rest' ts) m (graft rest rest' us) := by
  have tail {t : Token} {ts : List Token} (h : LeafSpelled (t :: ts) m us) : rest <:+ ts :=
    inside.trans h.consumes.tail
  cases h with
  | directive directive => exact .directive (directive.grafted s inside)
  | @property attributes modifiers specifier b bs t keyword ts mid _ noPound front isSpecifier
      bindings =>
    have behind := inside.trans bindings.consumes.suffix
    have suffix := front.leaves.suffix
    have within' := (List.suffix_cons _ _).trans (suffix.trans within)
    have front' := front.grafted s within (suffix_behind behind)
      (graft_head? (suffix_behind behind) (cons_ne_of_suffix behind))
      (by rw [graft_cons behind]; exact Specifier.not_starts isSpecifier)
      (fun _ => by
        rw [graft_cons behind]
        exact Modifier.not_startsDetail (by rw [Specifier.kind_of_ofToken? isSpecifier]; nofun))
    have tail := tail (.property noPound front isSpecifier bindings)
    rw [graft_cons tail] at front' ⊢
    rw [graft_cons behind] at front'
    exact .property noPound front' isSpecifier
      (bindings.grafted s ((signed.of_suffix suffix).tail) within' inside)
  | @dangling attributes modifiers t closer ts rest₂ noPound front closes shorter =>
    have tail := tail (.dangling noPound front closes shorter)
    -- The attributes are a member only in front of the brace, which has to stand there still.
    have head := dangles closer rfl closes rfl
    obtain ⟨more, made⟩ := List.head?_eq_some_iff.mp head
    have front' := front.grafted s within inside head
      (by rw [made]; exact Modifier.not_starts_kind (by rw [closes]; nofun))
      (fun _ => by rw [made]; exact Modifier.not_startsDetail (by rw [closes]; nofun))
    rw [graft_cons tail] at front' ⊢
    rw [made] at front' ⊢
    refine .dangling noPound front' closes ?_
    have leaf := LeafSpelled.dangling noPound front closes shorter
    have behind : graft rest rest' _ <:+ _ :=
      graft_suffix inside leaf.consumes.tail
    rw [made] at behind
    exact Nat.lt_of_lt_of_le (Nat.lt_add_one _) behind.length_le
  | @other attributes modifiers t word ts mid _ noPound front isOther noBrace skipped =>
    have behind := inside.trans skipped.consumes.tail
    have suffix := front.leaves.suffix
    have front' := front.grafted s within (suffix_behind behind)
      (graft_head? (suffix_behind behind) (cons_ne_of_suffix behind))
      (by
        rw [graft_cons behind]
        exact Modifier.not_starts_graft s (suffix.trans within) behind isOther front.not_starts)
      (fun none => by
        rw [graft_cons behind]
        exact skipped.not_detail inside none)
    have tail := tail (.other noPound front isOther noBrace skipped)
    rw [graft_cons tail] at front' ⊢
    rw [graft_cons behind] at front'
    exact .other noPound front' isOther noBrace (skipped.grafted s inside)

/-- A heading with what stands in front of it is read alike. -/
theorem OpeningSpelled.grafted {heading : Heading} {opener : Token}
    (h : OpeningSpelled ts heading opener us) (s : Seam all rest rest') (within : ts <:+ all)
    (inside : rest <:+ us) :
    OpeningSpelled (graft rest rest' ts) heading opener (graft rest rest' us) := by
  have left := h.consumes
  obtain @⟨attributes, modifiers, kind, name, inherited, t, keyword, opener, ts, mid, _, noPound,
    front, isKind, spelled, opens⟩ := h
  have tail := inside.trans left.tail
  have behind := (suffix_behind inside).trans spelled.suffix
  have suffix := front.leaves.suffix
  have more := cons_ne_of_suffix (t := opener) inside
  have proper : mid ≠ rest := by
    rintro rfl
    exact more (List.IsSuffix.eq_of_length_le spelled.suffix (suffix_behind inside).length_le)
  have kind : keyword.kind = .ident := by
    rw [DeclarationKind.ofToken?] at isKind
    split at isKind
    · assumption
    · cases isKind
  have front' := front.grafted s within (suffix_behind behind)
    (graft_head? (suffix_behind behind) (cons_ne_of_suffix behind))
    (by
      rw [graft_cons behind]
      exact Modifier.not_starts_congr (graft_head? behind proper) front.not_starts)
    (fun _ => by
      rw [graft_cons behind]
      exact Modifier.not_startsDetail (by simp [kind]))
  have spelled' := spelled.grafted s ((List.suffix_cons _ _).trans (suffix.trans within))
    (suffix_behind inside) more
  rw [graft_cons tail] at front' ⊢
  rw [graft_cons behind] at front'
  rw [graft_cons inside] at spelled'
  exact .mk noPound front' isKind spelled' opens

/-! ### Behind a closing brace -/

section

variable (more : List Token)

theorem graft_nil : graft [] more ts = ts ++ more := by
  simp [graft]

theorem graft_closer {closer : Token} (last : [closer] <:+ us) :
    graft [closer] (closer :: more) us = us ++ more := by
  obtain ⟨front, rfl⟩ := last
  rw [graft_append, List.append_assoc]
  rfl

/-- The brace at the end is the seam. -/
theorem EndsInBrace.last (h : EndsInBrace ts) : ∃ closer, [closer] <:+ ts ∧
    closer.kind = .closing .brace := by
  obtain ⟨closer, last, closes⟩ := h
  obtain ⟨front, rfl⟩ := List.getLast?_eq_some_iff.mp last
  exact ⟨closer, List.suffix_append _ _, closes⟩

theorem Group.Closes.followed {b : Bracket} {outer : List Bracket} {u : Token}
    (h : Closes b outer ts u us) : Closes b outer (ts ++ more) u (us ++ more) := by
  have longer : Closes b outer (graft [] more ts) u _ := h.grafted List.nil_suffix
  rwa [graft_nil, graft_nil] at longer

/-- A member is read alike if more tokens follow the brace at the end. -/
theorem LeafSpelled.followed {m : Member} (h : LeafSpelled ts m us) (signed : Signed ts)
    (ends : EndsInBrace us) : LeafSpelled (ts ++ more) m (us ++ more) := by
  obtain ⟨closer, last, closes⟩ := ends.last
  have seam : Seam ts [closer] (closer :: more) := .closed closes
  have kept := graft_closer more last
  have longer := h.grafted seam signed (List.suffix_refl _) last fun _ _ _ _ => by
    rw [kept, ends.head?_append]
  rwa [kept, graft_closer more (last.trans h.consumes.suffix)] at longer

/-- So is a heading. -/
theorem OpeningSpelled.followed {heading : Heading} {opener : Token}
    (h : OpeningSpelled ts heading opener us) (ends : EndsInBrace us) :
    OpeningSpelled (ts ++ more) heading opener (us ++ more) := by
  obtain ⟨closer, last, closes⟩ := ends.last
  have seam : Seam ts [closer] (closer :: more) := .closed closes
  have longer := h.grafted seam (List.suffix_refl _) last
  rwa [graft_closer more last, graft_closer more (last.trans h.consumes.suffix)] at longer

end

end CodableSynthesis
