import CodableSynthesis.FieldModel.Extraction
import CodableSynthesis.Proofs.Fronts.Items
import CodableSynthesis.Proofs.Grammar.Properties
import CodableSynthesis.Proofs.Nesting.Initializers
import CodableSynthesis.Proofs.Plain.Members

/-!
Observers behind an initializer. Whether a brace belongs to the initializer, and whether it begins
accessors, is found out by looking past attributes and modifiers, in two places and not alike.

* `ObserverBlock.WellFormed`: braces around accessors that all are observers, the first behind any
  attributes and modifiers.
* `FrontItem.startsObserver_iff`: the initializer ends in front of them if and only if nothing but
  attributes of a sign and one name stands in front of the first observer.
* `FrontItem.startsAccessor_iff`: as accessors they are read if, besides these, only keywords
  without details stand there.
* `Variable.reads_observed`: in the first case the property is observed, and otherwise it becomes a
  field.

`at_observer_block` decides where `skip_expression` stops. It steps over a sign and one token, any
number of times, and then asks for an observer's name. `parse_accessor_block` steps over modifiers
as well, as its comment says that accessors may carry them. Neither steps over the arguments of an
attribute or the rest of a dotted name. A block that the first does not know is taken for a trailing
closure of the initializer, and then the second is never asked.

So `IsShort` and `IsBrief` are the two measures of a block, the second weaker. Both are stated about
the items in front of the first observer as they are written, and each is shown to be what one of
the two functions finds. `readSource_models_observed` is a source in which the difference shows: a
property that is observed, and modelled all the same.
-/

namespace CodableSynthesis

open CodableSynthesis.Group (Balanced)
open Skipping (EndsExpression Takes observerWords startsObserver expression)
open AccessorBlock (accessorWords keywordsAt startsAccessor behindModifiers)

/-! ### Accessor words

Which words of a block count. `keywordsAt` goes through the tokens with a depth; the lemmas turn
that into the words outside of further brackets. -/

namespace AccessorBlock

section Words

variable {t closer : Token} {ts us rest : List Token} {depth : Nat}

theorem keywordsAt_opening {b : Bracket} (h : t.kind = .opening b) :
    keywordsAt depth (t :: ts) = keywordsAt (depth + 1) ts := by
  simp [keywordsAt, h]

theorem keywordsAt_closing {b : Bracket} (h : t.kind = .closing b) :
    keywordsAt (depth + 1) (t :: ts) = keywordsAt depth ts := by
  simp [keywordsAt, h]

/-- Words count at the outermost level only. -/
theorem keywordsAt_plain (notOpening : ∀ b, t.kind ≠ .opening b)
    (notClosing : ∀ b, t.kind ≠ .closing b) : keywordsAt depth (t :: ts) =
      (if depth = 0 ∧ t.isWordIn accessorWords = true then [t.text] else []) ++
        keywordsAt depth ts := by
  rw [keywordsAt.eq_def]
  dsimp only
  split
  · next opens => exact absurd opens (notOpening _)
  · next closes => exact absurd closes (notClosing _)
  · by_cases word : depth = 0 ∧ t.isWordIn accessorWords = true
    · rw [if_pos word, if_pos (by simpa using word)]
      rfl
    · rw [if_neg word, if_neg (by simpa using word)]
      rfl

/-- No word inside of brackets counts. -/
theorem keywordsAt_within (h : Balanced ts) :
    keywordsAt (depth + 1) (ts ++ us) = keywordsAt (depth + 1) us := by
  induction h generalizing depth us with
  | nil => rfl
  | plain notOpening notClosing _ ih =>
    rw [List.cons_append, keywordsAt_plain notOpening notClosing, ih]
    simp
  | group opens _ closes _ inner ih =>
    rw [List.cons_append, List.append_assoc, keywordsAt_opening opens, inner, List.cons_append,
      keywordsAt_closing closes, ih]

/-- The words of a balanced stretch come first. -/
theorem keywordsAt_balanced (h : Balanced ts) :
    keywordsAt 0 (ts ++ us) = keywordsAt 0 ts ++ keywordsAt 0 us := by
  induction h with
  | nil => rfl
  | plain notOpening notClosing _ ih =>
    rw [List.cons_append, keywordsAt_plain notOpening notClosing, ih,
      keywordsAt_plain notOpening notClosing, List.append_assoc]
  | group opens within closes _ _ ih =>
    rw [List.cons_append, List.append_assoc, keywordsAt_opening opens, keywordsAt_within within,
      List.cons_append, keywordsAt_closing closes, ih, keywordsAt_opening opens,
      keywordsAt_within within, keywordsAt_closing closes]

/-- The words of a block are those in it that no further bracket is around. What the loop finds with
a depth is stated here with balanced stretches. -/
theorem mem_keywordsAt_iff (h : Balanced ts) {b : Bracket} (closes : closer.kind = .closing b)
    {w : String} : w ∈ keywordsAt 0 (ts ++ closer :: rest) ↔
      ∃ front t back, ts = front ++ t :: back ∧ Balanced front ∧
        t.isWordIn accessorWords = true ∧ t.text = w := by
  have nothing : keywordsAt 0 (closer :: rest) = [] := by simp [keywordsAt, closes]
  constructor
  · rw [keywordsAt_balanced h, nothing, List.append_nil]
    intro mem
    induction h with
    | nil => cases mem
    | @plain t ts notOpening notClosing _ ih =>
      rw [keywordsAt_plain notOpening notClosing] at mem
      rcases List.mem_append.mp mem with own | later
      · by_cases word : 0 = 0 ∧ t.isWordIn accessorWords = true
        · rw [if_pos word, List.mem_singleton] at own
          exact ⟨[], t, ts, rfl, .nil, word.2, own.symm⟩
        · rw [if_neg word] at own
          cases own
      · obtain ⟨front, u, back, rfl, level, found⟩ := ih later
        exact ⟨t :: front, u, back, rfl, .plain notOpening notClosing level, found⟩
    | @group b t u inner ts opens within closes _ _ ih =>
      rw [keywordsAt_opening opens, keywordsAt_within within, keywordsAt_closing closes] at mem
      obtain ⟨front, v, back, rfl, level, found⟩ := ih mem
      exact ⟨t :: (inner ++ u :: front), v, back, by simp, .group opens within closes level, found⟩
  · rintro ⟨front, t, back, rfl, level, word, rfl⟩
    have ident := Token.kind_of_isWordIn word
    rw [List.append_assoc, keywordsAt_balanced level, List.cons_append,
      keywordsAt_plain (by simp [ident]) (by simp [ident]), if_pos ⟨rfl, word⟩]
    simp

end Words

end AccessorBlock

/-! ### What stands in front of an accessor

The two functions that look ahead, each with what it steps over. They are compared on the same
items. -/

/-- Behind its sign and its first name, an attribute ends, or goes on with a dot or with a
parenthesis. -/
theorem Attribute.Spelled.eq_cons_cons {a : Attribute} {ts rest : List Token}
    (h : Attribute.Spelled ts a rest) :
    ∃ sign first us, ts = sign :: first :: us ∧ sign.kind = .atSign ∧ first.kind = .ident ∧
      (us = rest ∨ ∃ u vs, us = u :: vs ∧ (u.kind = .dot ∨ u.kind = .opening .parenthesis)) := by
  obtain ⟨sign, ident, path, arguments⟩ := h
  refine ⟨_, _, _, rfl, sign, ident, ?_⟩
  cases path with
  | segment dot => exact .inr ⟨_, _, rfl, .inl dot⟩
  | stop =>
    cases arguments with
    | none => exact .inl rfl
    | some opens => exact .inr ⟨_, _, rfl, .inr opens⟩

namespace FrontItem

/-- The item is a sign and one name. This is all that `at_observer_block` steps over. -/
def IsShort : FrontItem → Prop
  | .attr ts _ => ts.length = 2
  | .modifier .. => False

/-- The item is a sign and one name, or a keyword without a detail. This is all that the reader of
accessors steps over. -/
def IsBrief : FrontItem → Prop
  | .attr ts _ => ts.length = 2
  | .modifier word detail => word.isWordIn Modifier.keywords = true ∧ detail = []

/-- What the reader of initializers finds, the reader of blocks finds, too. -/
theorem IsShort.isBrief {i : FrontItem} (h : i.IsShort) : i.IsBrief := by
  cases i with
  | attr => exact h
  | modifier => exact h.elim

/-- Brief items hold no brackets. -/
theorem balanced_of_isBrief {items : List FrontItem} (wellFormed : ∀ i ∈ items, i.WellFormed)
    (brief : ∀ i ∈ items, i.IsBrief) : Balanced (allTokens items) := by
  induction items with
  | nil => exact .nil
  | cons i items ih =>
    have later := ih (fun i mem => wellFormed i (.tail _ mem)) fun i mem => brief i (.tail _ mem)
    rw [allTokens, List.flatMap_cons]
    refine Balanced.append ?_ later
    have own := brief i (.head _)
    cases wellFormed i (.head _) with
    | attr spelled =>
      obtain ⟨sign, first, us, rfl, kind, ident, -⟩ := spelled.eq_cons_cons
      obtain rfl : us = [] := List.eq_nil_of_length_eq_zero (by simpa [IsBrief] using own)
      exact .plain (by simp [kind]) (by simp [kind])
        (.plain (by simp [ident]) (by simp [ident]) .nil)
    | keyword known =>
      have ident := Token.kind_of_isWordIn known
      obtain ⟨-, rfl⟩ := own
      exact .plain (by simp [ident]) (by simp [ident]) .nil
    | classWord isClass =>
      have ident := Token.kind_of_isWord isClass
      exact .plain (by simp [ident]) (by simp [ident]) .nil

section Lookahead

variable {items : List FrontItem} {t u word : Token} {ts : List Token}

theorem startsObserver_sign (h : t.kind = .atSign) :
    startsObserver (t :: u :: ts) = startsObserver ts := by
  simp [startsObserver, h]

theorem startsObserver_other (h : t.kind ≠ .atSign) :
    startsObserver (t :: ts) = t.isWordIn observerWords := by
  cases ts <;> simp [startsObserver, h]

theorem behindModifiers_sign (h : t.kind = .atSign) :
    behindModifiers (t :: u :: ts) = behindModifiers ts := by
  simp [behindModifiers, h]

theorem behindModifiers_keyword (h : t.isWordIn Modifier.keywords = true) :
    behindModifiers (t :: ts) = behindModifiers ts := by
  cases ts <;> simp [behindModifiers, h, Token.kind_of_isWordIn h]

theorem behindModifiers_other (noSign : t.kind ≠ .atSign)
    (noKeyword : t.isWordIn Modifier.keywords = false) :
    behindModifiers (t :: ts) = t :: ts := by
  cases ts <;> simp [behindModifiers, noSign, noKeyword]

theorem startsAccessor_other (noSign : t.kind ≠ .atSign)
    (noKeyword : t.isWordIn Modifier.keywords = false) :
    startsAccessor (t :: ts) = t.isWordIn accessorWords := by
  rw [startsAccessor, behindModifiers_other noSign noKeyword]

theorem not_isWordIn {words others : List String} (apart : ∀ w ∈ words, w ∉ others)
    (h : t.isWordIn words = true) : t.isWordIn others = false := by
  simp only [Token.isWordIn, Bool.and_eq_true, List.contains_iff_mem] at h
  simp [Token.isWordIn, apart t.text h.2]

theorem isWordIn_of_isWord {w : String} (h : t.isWord w = true) : t.isWordIn [w] = true := by
  simpa [Token.isWordIn, Token.isWord] using h

/-- Behind short attributes alone, the first observer is found by the reader of initializers. The
induction is on the items; an item that is not short leaves a dot, a parenthesis or a modifier where
the name of an observer should be. -/
theorem startsObserver_iff (wellFormed : ∀ i ∈ items, i.WellFormed)
    (observer : word.isWordIn observerWords = true) :
    startsObserver (allTokens items ++ word :: ts) = true ↔ ∀ i ∈ items, i.IsShort := by
  induction items with
  | nil =>
    rw [allTokens, List.flatMap_nil, List.nil_append,
      startsObserver_other (by simp [Token.kind_of_isWordIn observer]), observer]
    simp
  | cons i items ih =>
    have ih := ih fun i mem => wellFormed i (.tail _ mem)
    rw [List.forall_mem_cons, allTokens_cons, List.append_assoc]
    cases wellFormed i (.head _) with
    | attr spelled =>
      obtain ⟨sign, first, us, rfl, kind, ident, ends | ⟨u, vs, rfl, goesOn⟩⟩ :=
        spelled.eq_cons_cons
      · subst ends
        rw [tokens, List.cons_append, List.cons_append, startsObserver_sign kind, List.nil_append,
          ih]
        simp [IsShort]
      · have other : u.kind ≠ .atSign ∧ u.isWordIn observerWords = false := by
          rcases goesOn with goesOn | goesOn <;> simp [goesOn, Token.isWordIn]
        rw [tokens, List.cons_append, List.cons_append, startsObserver_sign kind, List.cons_append,
          startsObserver_other other.1, other.2]
        simp [IsShort]
    | keyword known =>
      rw [tokens, List.cons_append,
        startsObserver_other (by simp [Token.kind_of_isWordIn known]),
        not_isWordIn (by decide) known]
      simp [IsShort]
    | classWord isClass =>
      rw [tokens, List.cons_append,
        startsObserver_other (by simp [Token.kind_of_isWord isClass]),
        not_isWordIn (by decide) (isWordIn_of_isWord isClass)]
      simp [IsShort]

/-- Behind brief items alone, the first observer is found by the reader of blocks. The cases are
those of `startsObserver_iff`, with the keywords stepped over. -/
theorem startsAccessor_iff (wellFormed : ∀ i ∈ items, i.WellFormed)
    (observer : word.isWordIn observerWords = true) :
    startsAccessor (allTokens items ++ word :: ts) = true ↔ ∀ i ∈ items, i.IsBrief := by
  induction items with
  | nil =>
    rw [allTokens, List.flatMap_nil, List.nil_append,
      startsAccessor_other (by simp [Token.kind_of_isWordIn observer])
        (not_isWordIn (by decide) observer)]
    simp only [Token.isWordIn, Bool.and_eq_true, List.contains_iff_mem] at observer ⊢
    have known : ∀ w ∈ observerWords, w ∈ accessorWords := by decide
    simp [observer.1, known _ observer.2]
  | cons i items ih =>
    have ih := ih fun i mem => wellFormed i (.tail _ mem)
    rw [List.forall_mem_cons, allTokens_cons, List.append_assoc]
    cases wellFormed i (.head _) with
    | attr spelled =>
      obtain ⟨sign, first, us, rfl, kind, ident, ends | ⟨u, vs, rfl, goesOn⟩⟩ :=
        spelled.eq_cons_cons
      · subst ends
        rw [tokens, List.cons_append, List.cons_append, startsAccessor, behindModifiers_sign kind,
          ← startsAccessor, List.nil_append, ih]
        simp [IsBrief]
      · have other : u.kind ≠ .atSign ∧ u.isWordIn Modifier.keywords = false ∧
            u.isWordIn accessorWords = false := by
          rcases goesOn with goesOn | goesOn <;> simp [goesOn, Token.isWordIn]
        rw [tokens, List.cons_append, List.cons_append, startsAccessor, behindModifiers_sign kind,
          ← startsAccessor, List.cons_append, startsAccessor_other other.1 other.2.1, other.2.2]
        simp [IsBrief]
    | keyword known detail =>
      rw [tokens, List.cons_append, startsAccessor, behindModifiers_keyword known, ← startsAccessor]
      cases detail with
      | none =>
        rw [List.nil_append, ih]
        simp [IsBrief, known]
      | some opens =>
        rw [List.cons_append,
          startsAccessor_other (by simp [opens]) (by simp [Token.isWordIn, opens])]
        simp [IsBrief, Token.isWordIn, opens]
    | @classWord other isClass =>
      have noKeyword : other.isWordIn Modifier.keywords = false :=
        not_isWordIn (by decide) (isWordIn_of_isWord isClass)
      rw [tokens, List.cons_append,
        startsAccessor_other (by simp [Token.kind_of_isWord isClass]) noKeyword,
        not_isWordIn (by decide) (isWordIn_of_isWord isClass)]
      simp [IsBrief, noKeyword]

end Lookahead

end FrontItem

/-! ### Blocks of observers -/

/-- Braces with items in front of the first word in them. The rest of the first accessor, and all
further ones, are in `body`. -/
structure ObserverBlock where
  opener : Token
  items : List FrontItem
  word : Token
  body : List Token
  closer : Token

namespace ObserverBlock

/-- What is between the braces. -/
def inner (block : ObserverBlock) : List Token :=
  FrontItem.allTokens block.items ++ block.word :: block.body

/-- The block in front of other tokens. -/
def before (block : ObserverBlock) (rest : List Token) : List Token :=
  block.opener :: (block.inner ++ block.closer :: rest)

/-- The first word behind attributes and modifiers is an observer's, and so are all accessor words
of the block that no further bracket is around. -/
structure WellFormed (block : ObserverBlock) : Prop where
  /-- It begins with a brace. -/
  opens : block.opener.kind = .opening .brace
  /-- It holds groups as a whole. -/
  within : Balanced block.inner
  /-- It ends with the counterpart of the brace. -/
  closes : block.closer.kind = .closing .brace
  /-- Attributes and modifiers are as they are read on their own. -/
  items : ∀ i ∈ block.items, i.WellFormed
  /-- The first accessor is an observer. -/
  observer : block.word.isWordIn observerWords = true
  /-- All accessors are, as far as they are not within further brackets. -/
  observers {front back : List Token} {t : Token} :
    block.inner = front ++ t :: back → Balanced front → t.isWordIn accessorWords = true →
    t.isWordIn observerWords = true

/-- Only attributes of a sign and one name stand in front of the first observer. No items at all are
short, too. -/
def IsShort (block : ObserverBlock) : Prop :=
  ∀ i ∈ block.items, i.IsShort

/-- Only such attributes, and keywords without details, stand in front of the first observer.
Attributes with arguments are not stepped over by either function. -/
def IsBrief (block : ObserverBlock) : Prop :=
  ∀ i ∈ block.items, i.IsBrief

section

variable {block : ObserverBlock} (rest : List Token)

theorem IsShort.isBrief (h : block.IsShort) : block.IsBrief :=
  fun i mem => (h i mem).isBrief

theorem WellFormed.closes_group (wf : block.WellFormed) :
    Group.Closes .brace [] (block.inner ++ block.closer :: rest) block.closer rest :=
  Group.closes_iff.mpr ⟨_, rfl, wf.within, wf.closes⟩

/-- An initializer that has begun ends in front of the block if and only if the block is short.
Nothing else can end it there: a brace begins no declaration. -/
theorem WellFormed.endsExpression_iff (wf : block.WellFormed) :
    EndsExpression true (block.before rest) ↔ block.IsShort := by
  have starts : startsObserver (block.inner ++ block.closer :: rest) = true ↔ block.IsShort := by
    rw [inner, List.append_assoc]
    exact FrontItem.startsObserver_iff wf.items wf.observer
  rw [← starts]
  constructor
  · rintro (_ | ⟨-, -, begins⟩ | kind | kind | kind | ⟨-, -, starts⟩)
    · simp [Modifier.startsDeclaration, wf.opens, Token.isWordIn] at begins
    · simp [wf.opens] at kind
    · simp [wf.opens] at kind
    · simp [wf.opens] at kind
    · exact starts
  · exact .observers wf.opens rfl

/-- What is read of a brief block: some words, all of them observers'. -/
theorem WellFormed.ofTokens_of_isBrief (wf : block.WellFormed) (brief : block.IsBrief) :
    ∃ words, AccessorBlock.ofTokens (block.inner ++ block.closer :: rest) = .accessors words ∧
      words ≠ [] ∧ ∀ w ∈ words, w ∈ observerWords := by
  have starts : startsAccessor (block.inner ++ block.closer :: rest) = true := by
    rw [inner, List.append_assoc]
    exact (FrontItem.startsAccessor_iff wf.items wf.observer).mpr brief
  refine ⟨_, by rw [AccessorBlock.ofTokens, if_pos starts], ?_, ?_⟩
  · have known : block.word.isWordIn accessorWords = true := by
      have isWord := wf.observer
      simp only [Token.isWordIn, Bool.and_eq_true, List.contains_iff_mem] at isWord ⊢
      exact ⟨isWord.1, (by decide : ∀ w ∈ observerWords, w ∈ accessorWords) _ isWord.2⟩
    exact List.ne_nil_of_mem ((AccessorBlock.mem_keywordsAt_iff wf.within wf.closes).mpr
      ⟨_, _, _, rfl, FrontItem.balanced_of_isBrief wf.items brief, known, rfl⟩)
  · intro w mem
    obtain ⟨front, t, back, made, level, known, rfl⟩ :=
      (AccessorBlock.mem_keywordsAt_iff wf.within wf.closes).mp mem
    have observer := wf.observers made level known
    simp only [Token.isWordIn, Bool.and_eq_true, List.contains_iff_mem] at observer
    exact observer.2

theorem WellFormed.ofTokens_of_not_isBrief (wf : block.WellFormed) (brief : ¬ block.IsBrief) :
    AccessorBlock.ofTokens (block.inner ++ block.closer :: rest) = .getter := by
  have starts : ¬ startsAccessor (block.inner ++ block.closer :: rest) = true := by
    rw [inner, List.append_assoc]
    exact fun starts => brief ((FrontItem.startsAccessor_iff wf.items wf.observer).mp starts)
  rw [AccessorBlock.ofTokens, if_neg starts]

end

end ObserverBlock

/-! ### Observed properties

A property with an initializer and a block behind it, as it is read and as it is classified. -/

/-- A block is read as observers if and only if it is brief, and as the body of a getter
otherwise. -/
theorem ObserverBlock.WellFormed.reads_block_iff {block : ObserverBlock} (wf : block.WellFormed)
    {rest : List Token} :
    (∃ words, Reads (AccessorBlock.read? (block.before rest)) (some (.accessors words)) rest ∧
      words ≠ [] ∧ ∀ w ∈ words, w ∈ observerWords) ↔ block.IsBrief := by
  have spelled := AccessorBlock.reads_read_iff.mpr (.some wf.opens (wf.closes_group rest))
  constructor
  · rintro ⟨words, read, -⟩
    refine Classical.byContradiction fun notBrief => ?_
    have same := (read.unique spelled).1
    rw [wf.ofTokens_of_not_isBrief rest notBrief] at same
    cases same
  · intro brief
    obtain ⟨words, made, observers⟩ := wf.ofTokens_of_isBrief rest brief
    exact ⟨words, made ▸ spelled, observers⟩

namespace Variable

section Observed

variable {block : ObserverBlock} {attributes : List Attribute} {modifiers : List String}
  {specifier : Specifier} {n equals keyword : Token} {type : TypeExpr} {ts e rest : List Token}

theorem isEmpty_of_takes {ps : List Skipping.Piece} (nonempty : e ≠ [])
    (taken : Takes false (e ++ ts) ps ts) : ps.isEmpty = false := by
  rw [List.isEmpty_eq_false_iff]
  rintro rfl
  have made := taken.eq_append
  simp [nonempty] at made

/-- Without `static` and `class` among its modifiers a property belongs to instances. -/
theorem isTypeLevel_of_onInstance {b : Binding} {bs : List Binding} {span : Text.Span}
    (onInstance : "static" ∉ modifiers ∧ "class" ∉ modifiers) :
    (⟨attributes, modifiers, specifier, b, bs, span⟩ : Variable).isTypeLevel = false := by
  simp [isTypeLevel, onInstance]

/-- Of a property with an initializer and a block of observers behind it: the initializer ends in
front of the block if and only if it goes on up to there and the block is short. Then the property
is observed. Otherwise the block is taken for a part of the initializer, and the property for a
field.

The last part is the sibling path: read on its own, the block is one of observers if and only if it
is brief. So between short and brief lie the blocks that one function knows and the other does
not. -/
theorem reads_observed (wf : block.WellFormed) (ident : n.kind = .ident) (named : n.text ≠ "_")
    (typed : Binding.TypeSpelled ts (some type) (equals :: (e ++ block.before rest)))
    (isEquals : equals.kind = .equals) (nonempty : e ≠ [])
    (single : ∀ u ∈ rest.head?, u.kind ≠ .comma)
    (onInstance : "static" ∉ modifiers ∧ "class" ∉ modifiers) :
    (Reads (expression false (e ++ block.before rest)) () (block.before rest) ↔
        (∃ ps, Takes false (e ++ block.before rest) ps (block.before rest)) ∧ block.IsShort) ∧
      ((∃ ps, Takes false (e ++ block.before rest) ps (block.before rest)) →
        (block.IsShort → ∃ v words,
          Reads (Variable.read attributes modifiers specifier keyword (n :: ts)) v rest ∧
            v.bindings =
              [⟨.identifier n.text, some type, true, some (.accessors words), n.span⟩] ∧
            words ≠ [] ∧ (∀ w ∈ words, w ∈ observerWords) ∧ MemberClass.ofVariable v = .observed) ∧
        (¬ block.IsShort → EndsExpression true rest → ¬ AccessorBlock.StartsBlock rest → ∃ v,
          Reads (Variable.read attributes modifiers specifier keyword (n :: ts)) v rest ∧
            v.bindings = [⟨.identifier n.text, some type, true, none, n.span⟩] ∧
            MemberClass.ofVariable v = .field ⟨n.text, type⟩)) ∧
      ((∃ words, Reads (AccessorBlock.read? (block.before rest)) (some (.accessors words)) rest ∧
        words ≠ [] ∧ ∀ w ∈ words, w ∈ observerWords) ↔ block.IsBrief) := by
  have pattern : Pattern.Spells (.pattern (.identifier n.text)) (n :: ts) ts := by
    have name : Pattern.ofName n.text = .identifier n.text := if_neg named
    exact name ▸ .name ident
  refine ⟨?_, ?_, wf.reads_block_iff⟩
  · rw [Skipping.reads_expression_iff_takes]
    constructor
    · rintro ⟨ps, taken, ends⟩
      rw [isEmpty_of_takes nonempty taken] at ends
      exact ⟨⟨ps, taken⟩, (wf.endsExpression_iff rest).mp ends⟩
    · rintro ⟨⟨ps, taken⟩, short⟩
      refine ⟨ps, taken, ?_⟩
      rw [isEmpty_of_takes nonempty taken]
      exact (wf.endsExpression_iff rest).mpr short
  · rintro ⟨ps, taken⟩
    -- Something was read of the initializer, so a block of observers may end it.
    have started : (false || !ps.isEmpty) = true := by rw [isEmpty_of_takes nonempty taken]; rfl
    refine ⟨fun short => ?_, fun notShort ends noBlock => ?_⟩
    · obtain ⟨words, made, some_, observers⟩ :=
        wf.ofTokens_of_isBrief rest short.isBrief
      have value : Skipping.Expression false (e ++ block.before rest) (block.before rest) :=
        taken.expression (.stop (started ▸ (wf.endsExpression_iff rest).mpr short))
      have accessors : AccessorBlock.Spelled (block.before rest) (some (.accessors words)) rest :=
        made ▸ .some wf.opens (wf.closes_group rest)
      refine ⟨_, words, reads_read_iff.mpr ⟨_, _, .mk (.mk pattern typed (.some isEquals value)
        accessors) (.nil single), rfl⟩, rfl, some_, observers, ?_⟩
      have own : MemberClass.ofBinding ⟨.identifier n.text, some type, true,
          some (.accessors words), n.span⟩ = .observed := by
        simpa [MemberClass.ofBinding, some_] using observers
      simp [MemberClass.ofVariable, isTypeLevel_of_onInstance onInstance, own]
    · have value : Skipping.Expression false (e ++ block.before rest) rest := by
        refine taken.expression (started ▸ .group ?_ wf.opens (wf.closes_group rest) (.stop ends))
        exact fun stops => notShort ((wf.endsExpression_iff rest).mp stops)
      refine ⟨_, reads_read_iff.mpr ⟨_, _, .mk (.mk pattern typed (.some isEquals value)
        (.none noBlock)) (.nil single), rfl⟩, rfl, ?_⟩
      simp [MemberClass.ofVariable, isTypeLevel_of_onInstance onInstance, MemberClass.ofBinding]

end Observed

end Variable

/-- The accessor words of a block are observers' if those found in it are. -/
theorem ObserverBlock.observers_of_words {inner : List Token} (closer : Token)
    (within : Balanced inner) (closes : closer.kind = .closing .brace)
    (words : ∀ w ∈ keywordsAt 0 (inner ++ [closer]), w ∈ observerWords) {front back : List Token}
    {t : Token} (made : inner = front ++ t :: back) (level : Balanced front)
    (known : t.isWordIn accessorWords = true) : t.isWordIn observerWords = true := by
  have mem := words t.text ((AccessorBlock.mem_keywordsAt_iff within closes).mpr
    ⟨front, t, back, made, level, known, rfl⟩)
  simp [Token.isWordIn, Token.kind_of_isWordIn known, mem]

/-- `{ @MainActor didSet { } }` -/
def annotatedObserver : ObserverBlock where
  opener := .laid false (.opening .brace) "\x7b"
  items := [.attr [.laid false .atSign "@", .laid true .ident "MainActor"]
    ⟨"MainActor", ⟨0, 0, 0, 0⟩, ⟨0, 0, 0, 0⟩⟩]
  word := .laid false .ident "didSet"
  body := [.laid false (.opening .brace) "\x7b", .laid false (.closing .brace) "\x7d"]
  closer := .laid false (.closing .brace) "\x7d"

theorem annotatedObserver_wellFormed : annotatedObserver.WellFormed where
  opens := rfl
  within := by decide
  closes := rfl
  items := List.forall_mem_singleton.mpr (.attr (Attribute.reads_read_iff.mp ⟨_, rfl⟩))
  observer := by decide
  observers := ObserverBlock.observers_of_words annotatedObserver.closer (by decide) rfl (by decide)

namespace Variable

/-- The theorem at a property whose observer carries a short attribute. -/
theorem reads_observed_annotated :
    ∃ v, Reads (Variable.read [] [] .var (.laid false .ident "var")
        (.laid false .ident "a" :: .laid true .colon ":" :: .laid false .ident "Int" ::
          .laid false .equals "=" :: ([.laid false .number "0"] ++
            annotatedObserver.before [.laid false (.closing .brace) "\x7d"]))) v
        [.laid false (.closing .brace) "\x7d"] ∧
      MemberClass.ofVariable v = .observed := by
  have typed : Binding.TypeSpelled
      (.laid true .colon ":" :: .laid false .ident "Int" :: .laid false .equals "=" ::
        ([.laid false .number "0"] ++
          annotatedObserver.before [.laid false (.closing .brace) "\x7d"]))
      (some (.simple "Int")) (.laid false .equals "=" :: ([.laid false .number "0"] ++
        annotatedObserver.before [.laid false (.closing .brace) "\x7d"])) :=
    .some rfl (@TypeExpr.spells_name (.laid false .ident "Int") _ _ rfl (by decide) (.inl rfl))
  have value : Skipping.GoesOn false [.laid false .number "0"]
      (annotatedObserver.before [.laid false (.closing .brace) "\x7d"]) := by
    refine ⟨by decide, ?_, ?_⟩
    · rintro (_ | ⟨u, front⟩) t back made -
      · cases made
        rintro (_ | ⟨started, -, -⟩ | kind | kind | kind | ⟨kind, -, -⟩)
        · cases started
        all_goals cases kind
      · cases front <;> cases made
    · rintro (_ | ⟨u, front⟩) t back made - less
      · cases made
        cases less
      · cases front <;> cases made
  have name : (Token.laid false .ident "a").text ≠ "_" := by decide
  obtain ⟨-, reached, -⟩ := reads_observed annotatedObserver_wellFormed rfl name typed rfl
    (by simp) (by rintro _ ⟨⟩; nofun) ⟨List.not_mem_nil, List.not_mem_nil⟩
  obtain ⟨v, words, read, -, -, -, observed⟩ :=
    (reached value.takes).1 (List.forall_mem_singleton.mpr rfl)
  exact ⟨v, read, observed⟩

end Variable

/-- A property with an observer behind a modifier is taken for a stored one. The block is well
formed, and nothing is reported about it. -/
theorem readSource_models_observed :
    ∃ d m, readSource "class A \x7b var a: Int = 0 \x7b nonmutating didSet \x7b\x7d \x7d \x7d" =
        .ok [d] ∧
      FieldModel.extract "A" d = .ok m ∧ m.fields.map (·.identifier) = ["a"] ∧ m.skipped = [] := by
  have computed : ((readSource
        "class A \x7b var a: Int = 0 \x7b nonmutating didSet \x7b\x7d \x7d \x7d").toOption.any
      fun ds => ds.head?.any fun d => ds.tail.isEmpty &&
        (FieldModel.extract "A" d).toOption.any fun m =>
          decide (m.fields.map (·.identifier) = ["a"] ∧ m.skipped = [])) = true := by
    decide +kernel
  obtain ⟨ds, read, computed⟩ := ok_of_any computed
  obtain ⟨d, first, computed⟩ := (Option.any_eq_true _ _).mp computed
  simp only [Bool.and_eq_true, List.isEmpty_iff] at computed
  obtain ⟨more, rfl⟩ := List.head?_eq_some_iff.mp first
  obtain rfl : more = [] := computed.1
  obtain ⟨m, extracted, found⟩ := ok_of_any computed.2
  exact ⟨d, m, read, extracted, of_decide_eq_true found⟩

end CodableSynthesis
