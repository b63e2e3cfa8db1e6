import CodableSynthesis.Expansion.Source
import CodableSynthesis.Proofs.Fronts.Items
import CodableSynthesis.Proofs.Respelling.Classes
import CodableSynthesis.Proofs.Respelling.Laid
import Mathlib.Data.List.Chain
import Mathlib.Data.List.Pairwise

/-!
The order of attributes and modifiers in front of a declaration. `parse_member` reads the attributes
first and then the modifiers, and does not return to the attributes: one that stands behind a
modifier is not read.

* `FrontItem.AttributesFirst`: no attribute stands behind a modifier.
* `FrontItem.prefix_spelled`: what is read of any sequence of items, up to the declaration or up to
  the first attribute behind a modifier.
* `Member.reads_attributesFirst`, `Member.reads_not_attributesFirst`: the declaration in either
  case.
* `Member.reads_interleaved`: with the attributes moved in front the declaration is read with all of
  them; as it stands it is so if and only if it has them in front. Otherwise all that is left of it
  is the sign of an attribute.

The function that reads modifiers admits the sign of an attribute behind a modifier, which suggests
that the two were meant to be mixed. `readSource_drops_annotated` shows what comes of it: a class
that is annotated behind its modifier is not found at all.

The word `class` is a modifier only in front of some words. `FrontItem.Fits` asks for these words
with the attributes taken out, so it says the same of the items in either order and does not decide
between them. The declaration itself is any that is read from `keyword :: ts` with nothing in front
of it, which `Member.front?` and `Member.withFront` put into terms of the result.
-/

namespace CodableSynthesis

namespace FrontItem

/-- No attribute stands behind a modifier. It is stated pairwise: what has an attribute behind it is
an attribute. -/
def AttributesFirst (items : List FrontItem) : Prop :=
  items.Pairwise fun i j => j.isAttribute = true → i.isAttribute = true

/-- The items with all attributes moved in front. Attributes keep their order among themselves, and
so do modifiers. -/
def attributesMoved (items : List FrontItem) : List FrontItem :=
  items.filter (·.isAttribute) ++ items.filter (! ·.isAttribute)

/-- Attributes aside, the word `class` stands in front of another modifier or of the keyword of a
variable declaration. In front of anything else it is the keyword of a class. -/
def Fits (items : List FrontItem) (keyword : Token) : Prop :=
  (items.filterMap word? ++ [keyword]).IsChain fun t n =>
    t.isWord "class" = true → Modifier.isModifier t n = true

instance (items : List FrontItem) : Decidable (AttributesFirst items) :=
  inferInstanceAs (Decidable (List.Pairwise _ _))

instance (items : List FrontItem) (keyword : Token) : Decidable (Fits items keyword) :=
  inferInstanceAs (Decidable (List.IsChain _ _))

/-! ### Moving attributes

Moving attributes changes neither the attributes nor the modifiers of a sequence, only how the two
are mixed. All of this follows from filtering by a test that is constant on attributes or on
modifiers. -/

section Moved

variable (items : List FrontItem)

theorem attributesMoved_first : AttributesFirst (attributesMoved items) := by
  rw [AttributesFirst, attributesMoved, List.pairwise_append]
  refine ⟨?_, ?_, fun i mem _ _ _ => (List.mem_filter.mp mem).2⟩
  · exact List.pairwise_of_forall_mem_list fun i mem _ _ _ => (List.mem_filter.mp mem).2
  · refine List.pairwise_of_forall_mem_list fun _ _ j mem isAttribute => ?_
    simp [isAttribute] at mem

/-- What is found in attributes alone, or in modifiers alone, stays in order. -/
theorem filterMap_attributesMoved {α : Type} {g : FrontItem → Option α}
    (only : (∀ i, i.isAttribute = true → g i = none) ∨ ∀ i, i.isAttribute = false → g i = none) :
    (attributesMoved items).filterMap g = items.filterMap g := by
  have lost {p : FrontItem → Bool} (none_ : ∀ i, p i = true → g i = none) :
      (items.filter p).filterMap g = [] :=
    List.filterMap_eq_nil_iff.mpr fun i mem => none_ i (List.mem_filter.mp mem).2
  have kept {p : FrontItem → Bool} (none_ : ∀ i, p i = false → g i = none) :
      (items.filter p).filterMap g = items.filterMap g := by
    rw [List.filterMap_filter]
    refine List.filterMap_congr fun i _ => ?_
    by_cases holds : p i = true
    · rw [if_pos holds]
    · rw [if_neg holds, none_ i (Bool.eq_false_iff.mpr holds)]
  rw [attributesMoved, List.filterMap_append]
  rcases only with none_ | none_
  · rw [lost none_, kept (by simpa using none_), List.nil_append]
  · rw [kept none_, lost (by simpa using none_), List.append_nil]

theorem attributes_attributesMoved : attributes (attributesMoved items) = attributes items :=
  filterMap_attributesMoved items <| .inr <| by
    rintro (⟨ts, a⟩ | ⟨word, detail⟩) isModifier
    · cases isModifier
    · rfl

theorem filterMap_word_attributesMoved {α : Type} (g : Token → α) :
    (attributesMoved items).filterMap (fun i => i.word?.map g) =
      items.filterMap fun i => i.word?.map g :=
  filterMap_attributesMoved items <| .inl <| by
    rintro (⟨ts, a⟩ | ⟨word, detail⟩) isAttribute
    · rfl
    · cases isAttribute

theorem modifiers_attributesMoved : modifiers (attributesMoved items) = modifiers items :=
  filterMap_word_attributesMoved items _

end Moved

/-! ### Reading -/

section Reading

variable {items : List FrontItem} {keyword : Token} {ts : List Token}

theorem Fits.attributesMoved (h : Fits items keyword) :
    Fits (attributesMoved items) keyword := by
  have words := filterMap_word_attributesMoved items id
  simp only [Option.map_id, id_eq] at words
  rwa [Fits, words]

theorem wellFormed_attributesMoved (wellFormed : ∀ i ∈ items, i.WellFormed) :
    ∀ i ∈ FrontItem.attributesMoved items, i.WellFormed := by
  intro i mem
  rcases List.mem_append.mp mem with mem | mem <;> exact wellFormed i (List.mem_filter.mp mem).1

/-- The word `class` is not among the keywords of modifiers; it is treated apart. -/
theorem not_isWord_class {word : Token} (known : word.isWordIn Modifier.keywords = true) :
    word.isWord "class" = false := by
  refine Bool.eq_false_iff.mpr fun isClass => ?_
  simp only [Token.isWord, Token.isWordIn, Bool.and_eq_true, beq_iff_eq] at isClass known
  rw [isClass.2] at known
  exact absurd known.2 (by decide)

/-- A keyword is a modifier in front of a word, a sign or a detail. -/
theorem isModifier_of_keyword {word n : Token} (known : word.isWordIn Modifier.keywords = true)
    (goesOn : n.BeginsFront ∨ n.kind = .opening .parenthesis) :
    Modifier.isModifier word n = true := by
  rw [Modifier.isModifier, not_isWord_class known, if_neg Bool.false_ne_true, known]
  rcases goesOn with (kind | kind) | kind <;> rw [kind] <;> rfl

/-- A modifier is read with its detail, in front of a word or a sign. -/
theorem modifier_spelled {word t : Token} {detail us : List Token} {words : List String}
    {rest : List Token} (wellFormed : (modifier word detail).WellFormed)
    (begins : t.BeginsFront) (fits : word.isWord "class" = true → Modifier.isModifier word t = true)
    (later : Modifier.AllSpelled (t :: us) words rest) :
    Modifier.AllSpelled (word :: (detail ++ t :: us)) (word.text :: words) rest := by
  have noDetail : Modifier.Detail (t :: us) (t :: us) := by
    refine .none ?_
    rintro ⟨_, _, _, _, ⟨⟩, opens, -⟩
    rcases begins with kind | kind <;> simp [kind] at opens
  cases wellFormed with
  | keyword known spelled =>
    cases spelled with
    | none => exact .cons (isModifier_of_keyword known (.inl begins)) noDetail later
    | some opens ident closes =>
      exact .cons (isModifier_of_keyword known (.inr opens)) (.some opens ident closes) later
  | classWord isClass => exact .cons (fits isClass) noDetail later

/-- What is left where the modifiers break off: an attribute of `as`, or the word `class` in front
of one. In the second case the word is not a modifier, because a sign is no word that `class` may
stand in front of. -/
inductive BreaksOff (as : List Attribute) : List Token → Prop
  | sign {a : Attribute} {t : Token} {ts : List Token} :
      a ∈ as → t.kind = .atSign → t.span = a.first → BreaksOff as (t :: ts)
  | classWord {word t : Token} {ts : List Token} :
      word.isWord "class" = true → t.kind = .atSign → BreaksOff as (word :: t :: ts)

theorem BreaksOff.mono {as as' : List Attribute} {left : List Token} (h : BreaksOff as left)
    (among : ∀ a ∈ as, a ∈ as') : BreaksOff as' left := by
  cases h with
  | sign mem kind place => exact .sign (among _ mem) kind place
  | classWord isClass kind => exact .classWord isClass kind

/-- Modifiers are read up to the declaration, or up to an attribute if there is one. The induction
is on the items, and at the first attribute the reading breaks off. -/
theorem modifiers_spelled (wellFormed : ∀ i ∈ items, i.WellFormed) (fits : Fits items keyword)
    (ident : keyword.kind = .ident) (ends : ¬ Modifier.Starts (keyword :: ts)) :
    ∃ words left, Modifier.AllSpelled (allTokens items ++ keyword :: ts) words left ∧
      (((∀ i ∈ items, i.isAttribute = false) ∧ words = modifiers items ∧ left = keyword :: ts) ∨
        ((∃ i ∈ items, i.isAttribute = true) ∧ BreaksOff (attributes items) left)) := by
  induction items with
  | nil => exact ⟨[], _, .nil ends, .inl ⟨nofun, rfl, rfl⟩⟩
  | cons i items ih =>
    have later : ∀ i ∈ items, i.WellFormed := fun i mem => wellFormed i (.tail _ mem)
    match i with
    | .attr us a =>
      have .attr spelled := wellFormed (.attr us a) (.head _)
      obtain ⟨sign, us, rfl, kind, place⟩ := spelled.head
      refine ⟨[], _, .nil ?_, .inr ⟨⟨_, .head _, rfl⟩, .sign (.head _) kind place⟩⟩
      rintro ⟨u, n, rest, made, starts⟩
      obtain ⟨rfl, -⟩ := List.cons.inj made
      simp [Modifier.kind_of_isModifier starts] at kind
    | .modifier word detail =>
      obtain ⟨next, fits⟩ := List.isChain_cons.mp fits
      obtain ⟨words, left, spelled, found⟩ := ih later fits
      obtain ⟨t, us, made, head⟩ := exists_head later ident ts
      have whole : allTokens (.modifier word detail :: items) ++ keyword :: ts =
          word :: (detail ++ t :: us) := by
        rw [← made]
        simp [allTokens, tokens]
      rw [made] at spelled
      rw [whole]
      by_cases breaks : word.isWord "class" = true ∧ t.kind = .atSign
      · obtain ⟨isClass, kind⟩ := breaks
        obtain ⟨a, mem, -⟩ : ∃ a ∈ attributes items, t.span = a.first := by
          simpa [kind] using head
        obtain ⟨j, among, found⟩ := List.mem_filterMap.mp mem
        have isAttribute : j.isAttribute = true := by simp [FrontItem.isAttribute, found]
        cases wellFormed _ (.head _) with
        | keyword known => simp [not_isWord_class known] at isClass
        | classWord =>
          refine ⟨[], _, .nil ?_, .inr ⟨⟨j, .tail _ among, isAttribute⟩, .classWord isClass kind⟩⟩
          rintro ⟨u, n, rest, made, starts⟩
          cases made
          simp [Modifier.isModifier, isClass, Token.isWordIn, kind] at starts
      · have goesOn : word.isWord "class" = true → Modifier.isModifier word t = true := by
          intro isClass
          rcases head with ⟨kind, -⟩ | ⟨-, first⟩
          · exact absurd ⟨isClass, kind⟩ breaks
          · exact next t first isClass
        have begins : t.BeginsFront := head.elim (fun h => .inr h.1) (fun h => .inl h.1)
        refine ⟨_, _, modifier_spelled (wellFormed _ (.head _)) begins goesOn spelled, ?_⟩
        rcases found with ⟨none_, rfl, rfl⟩ | ⟨⟨j, mem, isAttribute⟩, broken⟩
        · exact .inl ⟨List.forall_mem_cons.mpr ⟨rfl, none_⟩, rfl, rfl⟩
        · exact .inr ⟨⟨j, .tail _ mem, isAttribute⟩, broken⟩

/-- In front of a declaration all items are read if the attributes come first, and otherwise those
in front of the first attribute behind a modifier. The induction is on the items: attributes in
front are read one by one, and at the first modifier `modifiers_spelled` takes over. -/
theorem prefix_spelled (wellFormed : ∀ i ∈ items, i.WellFormed) (fits : Fits items keyword)
    (ident : keyword.kind = .ident) (ends : ¬ Modifier.Starts (keyword :: ts)) :
    ∃ as words left, PrefixSpelled (allTokens items ++ keyword :: ts) as words left ∧
      ((AttributesFirst items ∧ as = attributes items ∧ words = modifiers items ∧
          left = keyword :: ts) ∨
        (¬ AttributesFirst items ∧ BreaksOff (attributes items) left)) := by
  induction items with
  | nil =>
    refine ⟨[], [], _, .mk (.nil ?_) (.nil ends), .inl ⟨.nil, rfl, rfl, rfl⟩⟩
    rintro _ ⟨⟩ kind
    simp [ident] at kind
  | cons i items ih =>
    have later : ∀ i ∈ items, i.WellFormed := fun i mem => wellFormed i (.tail _ mem)
    match i with
    | .attr us a =>
      have .attr spelled := wellFormed (.attr us a) (.head _)
      obtain ⟨as, words, left, ⟨attributes, modifiers⟩, found⟩ := ih later fits
      obtain ⟨t, vs, made, head⟩ := exists_head later ident ts
      have begins : t.BeginsFront := head.elim (fun h => .inr h.1) (fun h => .inl h.1)
      have first : Attribute.Spelled (us ++ (allTokens items ++ keyword :: ts)) a
          (allTokens items ++ keyword :: ts) := by
        rw [made]
        exact spelled.in_front vs begins
      have same : AttributesFirst (.attr us a :: items) ↔ AttributesFirst items :=
        List.pairwise_cons.trans (and_iff_right fun _ _ _ => rfl)
      refine ⟨a :: as, words, left, .mk (.cons ?_ attributes) modifiers, ?_⟩
      · simpa [allTokens, tokens] using first
      · rw [same]
        rcases found with ⟨ordered, rfl, rfl, rfl⟩ | ⟨unordered, broken⟩
        · exact .inl ⟨ordered, rfl, rfl, rfl⟩
        · exact .inr ⟨unordered, broken.mono fun _ mem => .tail _ mem⟩
    | .modifier word detail =>
      have known : word.kind = .ident := by
        cases wellFormed _ (.head _) with
        | keyword known => exact Token.kind_of_isWordIn known
        | classWord isClass => exact Token.kind_of_isWord isClass
      obtain ⟨words, left, spelled, found⟩ := modifiers_spelled wellFormed fits ident ends
      refine ⟨[], words, left, .mk (.nil ?_) spelled, ?_⟩
      · rintro _ ⟨⟩ kind
        simp [known] at kind
      · rcases found with ⟨none_, rfl, rfl⟩ | ⟨⟨j, mem, isAttribute⟩, broken⟩
        · refine .inl ⟨?_, ?_, rfl, rfl⟩
          · exact List.pairwise_of_forall_mem_list fun i _ j mem isAttribute => by
              simp [none_ j mem] at isAttribute
          · exact (List.filterMap_eq_nil_iff.mpr fun i mem =>
              Option.not_isSome_iff_eq_none.mp (Bool.eq_false_iff.mp (none_ i mem))).symm
        · refine .inr ⟨fun ordered => ?_, broken⟩
          rcases List.mem_cons.mp mem with rfl | mem
          · cases isAttribute
          · cases (List.pairwise_cons.mp ordered).1 j mem isAttribute

end Reading

end FrontItem

/-! ### Declarations

From items to declarations: a declaration read without anything in front of it is read with what the
items come to. -/

namespace Member

/-- The attributes and modifiers of a declaration. Members that are passed over keep none, so the
statements below are about declarations of types and of variables. -/
def front? : Member → Option (List Attribute × List String)
  | .type d => some (d.heading.attributes, d.heading.modifiers)
  | .variable v => some (v.attributes, v.modifiers)
  | .other .. => none

/-- A declaration with other attributes and modifiers. Members that are passed over have neither. -/
def withFront (attributes : List Attribute) (modifiers : List String) : Member → Member
  | .type d => .type ⟨{ d.heading with attributes, modifiers }, d.members, d.opener, d.closer⟩
  | .variable v => .variable { v with attributes, modifiers }
  | .other keyword span => .other keyword span

end Member

section Declarations

open FrontItem

variable {items : List FrontItem} {keyword : Token} {ts rest : List Token} {m : Member}

theorem DeclarationKind.ofToken?_class (h : keyword.isWord "class" = true) :
    DeclarationKind.ofToken? keyword = some .classType := by
  simp only [Token.isWord, Bool.and_eq_true, beq_iff_eq] at h
  rw [DeclarationKind.ofToken?, if_pos h.1, h.2]
  rfl

theorem DeclarationKind.kind_of_ofToken? {kind : DeclarationKind}
    (h : DeclarationKind.ofToken? keyword = some kind) : keyword.kind = .ident := by
  rw [DeclarationKind.ofToken?] at h
  split at h
  · assumption
  · cases h

/-- What is read in front of a declaration is determined by the tokens. -/
theorem PrefixSpelled.unique {as as' : List Attribute} {words words' : List String}
    {left left' : List Token} (h : PrefixSpelled ts as words left)
    (h' : PrefixSpelled ts as' words' left') : as = as' ∧ words = words' ∧ left = left' := by
  obtain ⟨attributes, modifiers⟩ := h
  obtain ⟨attributes', modifiers'⟩ := h'
  obtain ⟨rfl, rfl⟩ := (Attribute.reads_readAll_iff.mpr attributes).unique
    (Attribute.reads_readAll_iff.mpr attributes')
  exact ⟨rfl, modifiers.unique modifiers'⟩

/-- Where nothing is read in front of a declaration, it does not begin with a modifier. -/
theorem PrefixSpelled.nothing (h : PrefixSpelled ts [] [] rest) :
    rest = ts ∧ ¬ Modifier.Starts ts := by
  obtain ⟨attributes, modifiers⟩ := h
  cases attributes with
  | nil =>
    cases modifiers with
    | nil ends => exact ⟨rfl, ends⟩

/-- The keyword of a declaration without attributes and modifiers comes first. -/
theorem MemberSpelled.keyword_first (h : MemberSpelled (keyword :: ts) m rest)
    (bare : m.front? = some ([], [])) :
    keyword.kind = .ident ∧ ¬ Modifier.Starts (keyword :: ts) := by
  cases h with
  | leaf leaf =>
    cases leaf with
    | directive directive => cases directive <;> cases bare
    | dangling | other => cases bare
    | property _ front isSpecifier =>
      cases bare
      obtain ⟨same, ends⟩ := front.nothing
      obtain ⟨rfl, rfl⟩ := List.cons.inj same
      exact ⟨Specifier.kind_of_ofToken? isSpecifier, ends⟩
  | type opening =>
    obtain ⟨_, front, isKind, -, -⟩ := opening
    cases bare
    obtain ⟨same, ends⟩ := front.nothing
    obtain ⟨rfl, rfl⟩ := List.cons.inj same
    exact ⟨DeclarationKind.kind_of_ofToken? isKind, ends⟩

/-- A declaration is read with whatever is read in front of it. -/
theorem MemberSpelled.with_front {attributes : List Attribute} {modifiers : List String} {t : Token}
    {us : List Token} (h : MemberSpelled ts m rest) (bare : m.front? = some ([], []))
    (noPound : t.kind ≠ .pound) (front : PrefixSpelled (t :: us) attributes modifiers ts) :
    MemberSpelled (t :: us) (m.withFront attributes modifiers) rest := by
  cases h with
  | leaf leaf =>
    cases leaf with
    | directive directive => cases directive <;> cases bare
    | dangling | other => cases bare
    | property _ nothing isSpecifier spelled =>
      cases bare
      rw [← nothing.nothing.1] at front
      exact .leaf (.property noPound front isSpecifier spelled)
  | type opening members =>
    obtain ⟨_, nothing, isKind, heading, opens⟩ := opening
    cases bare
    rw [← nothing.nothing.1] at front
    exact .type (.mk noPound front isKind heading opens) members

/-- Nothing is read where the modifiers break off but the sign of an attribute. Both shapes of
`BreaksOff` are looked at: a sign begins no declaration, so it is passed over as something else; the
word `class` wants a name behind it, and a sign is none. -/
theorem MemberSpelled.of_breaksOff {as attributes : List Attribute} {modifiers : List String}
    {t : Token} {us left : List Token} (h : MemberSpelled (t :: us) m rest)
    (noPound : t.kind ≠ .pound) (front : PrefixSpelled (t :: us) attributes modifiers left)
    (breaks : BreaksOff as left) : ∃ a ∈ as, ∃ text, m = .other text a.first := by
  cases breaks with
  | @sign a sign _ mem kind place =>
    cases h with
    | leaf leaf =>
      cases leaf with
      | directive directive => cases directive <;> exact absurd ‹t.kind = .pound› noPound
      | property _ front' isSpecifier =>
        obtain ⟨rfl, -⟩ := List.cons.inj (front'.unique front).2.2
        simp [Specifier.kind_of_ofToken? isSpecifier] at kind
      | dangling _ front' closes =>
        obtain ⟨rfl, -⟩ := List.cons.inj (front'.unique front).2.2
        simp [closes] at kind
      | other _ front' =>
        obtain ⟨rfl, -⟩ := List.cons.inj (front'.unique front).2.2
        exact ⟨a, mem, _, by rw [place]⟩
    | type opening =>
      obtain ⟨_, front', isKind, -, -⟩ := opening
      obtain ⟨rfl, -⟩ := List.cons.inj (front'.unique front).2.2
      simp [DeclarationKind.kind_of_ofToken? isKind] at kind
  | @classWord word sign _ isClass kind =>
    have isKind := DeclarationKind.ofToken?_class isClass
    cases h with
    | leaf leaf =>
      cases leaf with
      | directive directive => cases directive <;> exact absurd ‹t.kind = .pound› noPound
      | property _ front' isSpecifier =>
        obtain ⟨rfl, -⟩ := List.cons.inj (front'.unique front).2.2
        simp [DeclarationKind.ofToken?_of_specifier isSpecifier] at isKind
      | dangling _ front' closes =>
        obtain ⟨rfl, -⟩ := List.cons.inj (front'.unique front).2.2
        simp [Token.kind_of_isWord isClass] at closes
      | other _ front' otherWord =>
        obtain ⟨rfl, -⟩ := List.cons.inj (front'.unique front).2.2
        simp [otherWord.1] at isKind
    | type opening =>
      -- The word introduces a class, whose name would be the sign.
      obtain ⟨_, front', isKind', heading, -⟩ := opening
      obtain ⟨rfl, rfl⟩ := List.cons.inj (front'.unique front).2.2
      obtain rfl := Option.some.inj (isKind.symm.trans isKind')
      obtain ⟨named, -, -, -⟩ := heading
      cases named with
      | name _ ident => simp [ident] at kind

/-- In front of a declaration, items with the attributes first are read as its attributes and
modifiers. -/
theorem Member.reads_attributesFirst (wellFormed : ∀ i ∈ items, i.WellFormed)
    (fits : Fits items keyword) (plain : Reads (Member.read (keyword :: ts)) m rest)
    (bare : m.front? = some ([], [])) (ordered : AttributesFirst items) :
    Reads (Member.read (allTokens items ++ keyword :: ts))
      (m.withFront (attributes items) (modifiers items)) rest := by
  have spelled := memberSpelled_of_reads (fun _ => members_of_reads) plain
  obtain ⟨ident, ends⟩ := spelled.keyword_first bare
  obtain ⟨as, words, left, front, found⟩ := prefix_spelled wellFormed fits ident ends
  obtain ⟨t, us, made, head⟩ := exists_head wellFormed ident ts
  have noPound : t.kind ≠ .pound := by
    rcases head with ⟨kind, -⟩ | ⟨kind, -⟩ <;> simp [kind]
  rcases found with ⟨-, rfl, rfl, rfl⟩ | ⟨unordered, -⟩
  · rw [made] at front ⊢
    exact (spelled.with_front bare noPound front).reads
  · exact absurd ordered unordered

/-- Where an attribute stands behind a modifier in front of a declaration, all that can be read is
the sign of an attribute. -/
theorem Member.reads_not_attributesFirst (wellFormed : ∀ i ∈ items, i.WellFormed)
    (fits : Fits items keyword) (plain : Reads (Member.read (keyword :: ts)) m rest)
    (bare : m.front? = some ([], [])) (unordered : ¬ AttributesFirst items) {m' : Member}
    {rest' : List Token} (read : Reads (Member.read (allTokens items ++ keyword :: ts)) m' rest') :
    ∃ a ∈ attributes items, ∃ text, m' = .other text a.first := by
  obtain ⟨ident, ends⟩ :=
    (memberSpelled_of_reads (fun _ => members_of_reads) plain).keyword_first bare
  obtain ⟨as, words, left, front, found⟩ := prefix_spelled wellFormed fits ident ends
  obtain ⟨t, us, made, head⟩ := exists_head wellFormed ident ts
  have noPound : t.kind ≠ .pound := by
    rcases head with ⟨kind, -⟩ | ⟨kind, -⟩ <;> simp [kind]
  rcases found with ⟨ordered, -⟩ | ⟨-, breaks⟩
  · exact absurd ordered unordered
  · rw [made] at front read
    have spelled := memberSpelled_of_reads (fun _ => members_of_reads) read
    exact spelled.of_breaksOff noPound front breaks

/-- With its attributes moved in front, a declaration is read with all its attributes and modifiers.
As it stands it is read so if and only if no attribute stands behind a modifier; if one does, all
that can be read of the declaration is the sign of an attribute.

The declaration is any one that is read from `keyword :: ts` without anything in front of it.
Nothing is asked of the items but that each of them is one, and that the word `class` stands where
it is a modifier. -/
theorem Member.reads_interleaved (wellFormed : ∀ i ∈ items, i.WellFormed)
    (fits : Fits items keyword) (plain : Reads (Member.read (keyword :: ts)) m rest)
    (bare : m.front? = some ([], [])) :
    Reads (Member.read (allTokens (attributesMoved items) ++ keyword :: ts))
        (m.withFront (attributes items) (modifiers items)) rest ∧
      (Reads (Member.read (allTokens items ++ keyword :: ts))
          (m.withFront (attributes items) (modifiers items)) rest ↔ AttributesFirst items) ∧
      (¬ AttributesFirst items → ∀ m' rest',
        Reads (Member.read (allTokens items ++ keyword :: ts)) m' rest' →
          ∃ a ∈ attributes items, ∃ text, m' = .other text a.first) := by
  refine ⟨?_, ⟨fun read => ?_, reads_attributesFirst wellFormed fits plain bare⟩,
    fun unordered _ _ => reads_not_attributesFirst wellFormed fits plain bare unordered⟩
  · have moved := reads_attributesFirst (wellFormed_attributesMoved wellFormed)
      fits.attributesMoved plain bare (attributesMoved_first items)
    rwa [attributes_attributesMoved, modifiers_attributesMoved] at moved
  · by_contra unordered
    obtain ⟨a, -, text, same⟩ :=
      reads_not_attributesFirst wellFormed fits plain bare unordered read
    cases m with
    | other => cases bare
    | type d => cases same
    | «variable» v => cases same

/-- `private(set) @objc(n) static @Published`: two attributes, each behind a modifier. -/
def crossedFront : List FrontItem :=
  [.modifier (.laid false .ident "private")
      [.laid true (.opening .parenthesis) "(", .laid true .ident "set",
        .laid true (.closing .parenthesis) ")"],
    .attr [.laid false .atSign "@", .laid true .ident "objc",
        .laid true (.opening .parenthesis) "(", .laid true .ident "n",
        .laid true (.closing .parenthesis) ")"] ⟨"objc", ⟨0, 0, 0, 0⟩, ⟨0, 0, 0, 0⟩⟩,
    .modifier (.laid false .ident "static") [],
    .attr [.laid false .atSign "@", .laid true .ident "Published"]
      ⟨"Published", ⟨0, 0, 0, 0⟩, ⟨0, 0, 0, 0⟩⟩]

theorem Member.reads_interleaved_crossed :
    ∃ v, Reads (Member.read (allTokens (attributesMoved crossedFront) ++
        [.laid false .ident "var", .laid false .ident "n", .laid true .colon ":",
          .laid false .ident "Int"])) (.variable v) [] ∧
      v.attributes.map (·.name) = ["objc", "Published"] ∧ v.modifiers = ["private", "static"] ∧
      ∀ m' rest', Reads (Member.read (allTokens crossedFront ++
        [.laid false .ident "var", .laid false .ident "n", .laid true .colon ":",
          .laid false .ident "Int"])) m' rest' → ∃ text span, m' = .other text span := by
  have wellFormed : ∀ i ∈ crossedFront, i.WellFormed := by
    rintro i (_ | ⟨_, _ | ⟨_, _ | ⟨_, _ | ⟨_, ⟨⟩⟩⟩⟩⟩)
    · exact .keyword (by decide) (.some rfl rfl rfl)
    · exact .attr (Attribute.reads_read_iff.mp ⟨_, rfl⟩)
    · exact .keyword (by decide) (.none (by rintro ⟨_, _, _, _, ⟨⟩, -⟩))
    · exact .attr (Attribute.reads_read_iff.mp ⟨_, rfl⟩)
  have computed : (Member.read [.laid false .ident "var", .laid false .ident "n",
      .laid true .colon ":", .laid false .ident "Int"]).toOption.any fun s =>
        match s.value with
        | .variable v => decide (v.attributes = [] ∧ v.modifiers = [] ∧ s.rest = [])
        | _ => false := by
    decide +kernel
  obtain ⟨⟨m, rest, shorter⟩, read, computed⟩ := ok_of_any computed
  cases m with
  | type | other => cases computed
  | «variable» v =>
    obtain ⟨attributes, modifiers, rfl⟩ := of_decide_eq_true computed
    obtain ⟨moved, -, crossed⟩ := Member.reads_interleaved wellFormed (by decide) ⟨shorter, read⟩
      (by rw [front?, attributes, modifiers])
    refine ⟨_, moved, rfl, rfl, fun m' rest' read' => ?_⟩
    obtain ⟨a, -, text, same⟩ := crossed (by decide) m' rest' read'
    exact ⟨text, a.first, same⟩

/-- An annotated class is found if the attribute stands in front of its modifier, but not behind
it. -/
theorem readSource_drops_annotated :
    (∃ d, readSource "@Codable public class A \x7b\x7d" = .ok [d] ∧ d.isAnnotated = true) ∧
      readSource "public @Codable class A \x7b\x7d" = .ok [] := by
  have found : ((readSource "@Codable public class A \x7b\x7d").toOption.any fun ds =>
      ds.head?.any fun d => ds.tail.isEmpty && d.isAnnotated) = true := by
    decide +kernel
  have dropped : ((readSource "public @Codable class A \x7b\x7d").toOption.any fun ds =>
      ds.isEmpty) = true := by
    decide +kernel
  obtain ⟨ds, read, found⟩ := ok_of_any found
  obtain ⟨ds', read', nothing⟩ := ok_of_any dropped
  obtain ⟨d, first, found⟩ := (Option.any_eq_true _ _).mp found
  simp only [Bool.and_eq_true, List.isEmpty_iff] at found
  obtain ⟨more, rfl⟩ := List.head?_eq_some_iff.mp first
  obtain rfl : more = [] := found.1
  obtain rfl := List.isEmpty_iff.mp nothing
  exact ⟨⟨d, read, found.2⟩, read'⟩

end Declarations

end CodableSynthesis
