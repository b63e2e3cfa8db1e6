import CodableSynthesis.Proofs.Joining.Files
import CodableSynthesis.Proofs.Repeated.Openings

/-!
The members of an expanded source. What is put in front of the closing brace of a class is read as
members, what is put behind a declaration is read as declarations, and all else is read as before.

* `Formed`, `Extending`: what is asked of the tokens that are put in.
* `Declaration.Prepared`: what is asked of the tokens around an annotated declaration.
* `OpeningSpelled.delivers_type`: one declaration, given its members.
* `Members.delivers`, `FileSpelled.delivers`: members, and a whole file, are read again, and nothing
  is annotated any more.

The members of a declaration are read up to its closing brace, and what is put in stands in front of
that. So what is shown for members is not that they are read again as they were, but that more
members can be read behind them. `Leads` says so: whatever is read from some point on, the members
in front of it can be read, too.

Nothing is shown about what exactly is read of an expanded source, only that it can be read and that
nothing in it is annotated. This is all that expanding twice asks for.
-/

namespace CodableSynthesis

variable {source : List Char} {w : Writer} {all ts us mid rest : List Token} {t : Token}
  {cs later : List Change} {P : List Token → Prop}

/-! ### Bodies

What is put into a body, and what has to be true of the tokens around it. -/

/-- No declaration among the members is annotated, at any depth. -/
def Member.NoneAnnotated (ms : List Member) : Prop :=
  ∀ n ∈ Declaration.nestedIn ms, n.isAnnotated = false

/-- The tokens of a generated member: they begin a line and a declaration, and are read as one
member without annotations in front of the end of a body and of further such members. -/
structure Formed (us : List Token) : Prop where
  /-- The first token begins a line and a declaration, and is no attribute. -/
  begins : ∃ u ∈ us.head?, u.Begins ∧ u.kind ≠ .atSign ∧ u.newlineBefore = true
  /-- No generic arguments end in them that are open in front of them. -/
  apart : ∀ {depth : Nat} {rest mid : List Token}, ¬ Group.ClosesArguments depth (us ++ rest) mid
  /-- They are read as one member in front of whatever a declaration ends before. -/
  member : ∀ {rest : List Token}, Skipping.EndsDeclaration true rest →
    ∃ m, MemberSpelled (us ++ rest) m rest ∧ Member.NoneAnnotated [m]

/-- The tokens of a generated extension, which are read as a declaration without annotations
wherever they stand. -/
structure Extending (us : List Token) : Prop where
  /-- The first token begins a declaration. -/
  begins : ∃ u ∈ us.head?, u.Begins
  /-- They are read as one declaration in front of anything. -/
  member : ∀ {rest : List Token}, ∃ m, MemberSpelled (us ++ rest) m rest ∧ Member.NoneAnnotated [m]

/-- What an expansion needs around an annotated declaration to leave it readable, and the tokens of
what is put into it. -/
structure Declaration.Prepared (all : List Token) (w : Writer) (name : String) (d : Declaration) :
    Prop where
  /-- No dot stands in front of an attribute that is taken out. -/
  attributes : ∀ a ∈ d.heading.attributes, a.isExpanded = true → ∀ b sign more,
    b :: sign :: more <:+ all → sign.span = a.first → b.kind ≠ .dot
  /-- No generic arguments end behind the keyword. -/
  heading : ∀ keyword after, keyword :: after <:+ all → keyword.span = d.heading.keyword →
    ∀ mid, ¬ Group.ClosesArguments 0 after mid
  /-- What stands in front of the closing brace does not go on with what is put there. -/
  body : d.heading.kind = .classType → ∀ b closer more, b :: closer :: more <:+ all →
    closer.span = d.closer → b.reachesOn = false
  /-- The last member is not a modifier or attribute without a declaration. -/
  last : d.heading.kind = .classType → ∀ text, .other text d.closer ∉ d.members
  /-- The generated members are such. -/
  members : ∀ text ∈ d.generatedMembers w name, ∃ us, Typeset text us ∧ Formed us
  /-- So are the extensions. -/
  extensions : ∀ text ∈ d.generatedExtensions w name, ∃ us, Typeset text us ∧ Extending us

theorem Token.Begins.beginsMember (h : t.Begins) : t.BeginsMember := by
  rcases h.kind with kind | kind <;> exact ⟨by rw [kind]; nofun, by rw [kind]; nofun⟩

theorem MemberSpelled.members {m : Member} {ms : List Member} {closer : Token}
    (h : MemberSpelled (t :: ts) m mid) (begins : t.BeginsMember)
    (later : Members mid ms closer rest) : Members (t :: ts) (m :: ms) closer rest := by
  cases h with
  | leaf leaf => exact .leaf begins leaf later
  | type opening inner => exact .type begins opening inner later

namespace Member.NoneAnnotated

variable {m : Member} {ms : List Member}

theorem cons (h : NoneAnnotated [m]) (later : NoneAnnotated ms) : NoneAnnotated (m :: ms) := by
  cases m with
  | «variable» | other => exact later
  | type d =>
    rw [NoneAnnotated, Declaration.nestedIn] at h ⊢
    exact List.forall_mem_append.mpr ⟨(List.forall_mem_append.mp h).1, later⟩

theorem leaf (h : m.type? = none) : NoneAnnotated [m] := by
  cases m with
  | «variable» | other => exact nofun
  | type d => cases h

theorem type {heading : Heading} {opener closer : Text.Span}
    (none : ∀ a ∈ heading.attributes, a.isExpanded = false) (inner : NoneAnnotated ms) :
    NoneAnnotated [.type ⟨heading, ms, opener, closer⟩] := by
  rw [NoneAnnotated, Declaration.nestedIn, Declaration.withNested, Declaration.nestedIn,
    List.append_nil]
  exact List.forall_mem_cons.mpr ⟨List.any_eq_false.mpr fun a mem => by
    rw [← Attribute.isExpanded, none a mem]
    nofun, inner⟩

end Member.NoneAnnotated

namespace Formed

variable {uss : List (List Token)} {closer : Token}

theorem endsDeclaration (h : ∀ us ∈ uss, Formed us) (closes : closer.kind = .closing .brace) :
    Skipping.EndsDeclaration true (uss.flatten ++ closer :: rest) := by
  cases uss with
  | nil => exact .closing closes
  | cons us uss =>
    obtain ⟨u, head, begins, -⟩ := (h us (.head _)).begins
    obtain ⟨more, rfl⟩ := List.head?_eq_some_iff.mp head
    exact .declaration (.inr rfl) begins.startsDeclaration

/-- Generated members are read in front of a closing brace. -/
theorem members (h : ∀ us ∈ uss, Formed us) (closes : closer.kind = .closing .brace)
    (rest : List Token) :
    ∃ ms, Members (uss.flatten ++ closer :: rest) ms closer rest ∧ Member.NoneAnnotated ms := by
  induction uss with
  | nil => exact ⟨[], .close closes, nofun⟩
  | cons us uss ih =>
    obtain ⟨here, others⟩ := List.forall_mem_cons.mp h
    obtain ⟨ms, later, none⟩ := ih others
    obtain ⟨m, spelled, none'⟩ := here.member (endsDeclaration others closes)
    refine ⟨m :: ms, ?_, none'.cons none⟩
    obtain ⟨u, head, begins, -⟩ := here.begins
    obtain ⟨more, rfl⟩ := List.head?_eq_some_iff.mp head
    rw [List.flatten_cons, List.append_assoc]
    exact MemberSpelled.members spelled begins.beginsMember later

end Formed

theorem forall₂_of_forall {α β : Type} {R : α → β → Prop} {Q : β → Prop} {as : List α}
    (h : ∀ a ∈ as, ∃ b, R a b ∧ Q b) : ∃ bs, List.Forall₂ R as bs ∧ ∀ b ∈ bs, Q b := by
  induction as with
  | nil => exact ⟨[], .nil, nofun⟩
  | cons a as ih =>
    obtain ⟨⟨b, here, holds⟩, others⟩ := List.forall_mem_cons.mp h
    obtain ⟨bs, later, all⟩ := ih others
    exact ⟨b :: bs, .cons here later, List.forall_mem_cons.mpr ⟨holds, all⟩⟩

namespace Declaration

variable {d : Declaration} {name : String} {closer : Token} {follows : List Change}

/-- Generated members are put in front of the closing brace of a class that is annotated. -/
theorem delivers_closer (vss : List (List Token)) (closes : closer.kind = .closing .brace)
    (same : d.closer = closer.span) (prepared : d.isAnnotated = true → d.Prepared all w name)
    (follow : Follows closer follows)
    (followed : List.Forall₂ Typeset (follows.flatMap Change.texts) vss)
    (next : Delivers source w true mid cs P) :
    Delivers source w true (closer :: mid) (d.ownFill w name ++ (follows ++ cs)) fun us =>
      Seam all (closer :: mid) us ∧
        ((∀ text, .other text d.closer ∉ d.members) ∨ us.head? = some closer) ∧
        ∃ (uss : List (List Token)) (closer' : Token) (us' : List Token),
          us = uss.flatten ++ closer' :: (vss.flatten ++ us') ∧ P us' ∧
          (∀ us ∈ uss, Formed us) ∧ closer'.kind = .closing .brace := by
  have ends : true = true → AtAttribute mid → closer.EndsMember :=
    fun _ _ => .inr (.inl ⟨_, closes⟩)
  have fill : Fills closer (d.ownFill w name) := Declaration.fills closes same
  by_cases class_ : d.isAnnotated = true ∧ d.heading.kind = .classType
  · have prepared := prepared class_.1
    have own : d.ownFill w name = [.fill d (d.generatedMembers w name)] := by
      rw [ownFill, if_pos (by simpa using class_)]
    have some_ : d.generatedMembers w name ≠ [] := by
      have := @generatedMembers_isEmpty w name d
      rw [class_.1, class_.2] at this
      simpa using this
    obtain ⟨uss, filled, formed⟩ := forall₂_of_forall prepared.members
    rw [own] at fill ⊢
    refine (next.keep fill follow ends (List.forall_mem_singleton.mpr some_)
      (by rwa [List.flatMap_singleton]) followed).mono ?_
    rintro _ ⟨us', rfl, holds⟩
    refine ⟨?_, .inl (prepared.last class_.2), uss, _, us', rfl, holds, formed, closes⟩
    have more : uss ≠ [] := by
      rintro rfl
      exact some_ (List.forall₂_nil_right_iff.mp filled)
    obtain ⟨us, uss, rfl⟩ := List.exists_cons_of_ne_nil more
    have first := formed us (.head _)
    obtain ⟨u, head, begins, noSign, line⟩ := first.begins
    obtain ⟨more, rfl⟩ := List.head?_eq_some_iff.mp head
    rw [List.flatten_cons, List.append_assoc, List.cons_append]
    refine .filled closes begins noSign line (fun b found => ?_) fun _ _ => first.apart
    exact prepared.body class_.2 b closer mid found same.symm
  · have none : d.ownFill w name = [] := by
      rw [ownFill, if_neg (by simpa using class_)]
    rw [none]
    refine (next.keep .nothing follow ends (List.forall_mem_nil _) .nil followed).mono ?_
    rintro _ ⟨us', rfl, holds⟩
    exact ⟨.closed closes, .inr rfl, [], closer, us', rfl, holds, List.forall_mem_nil _, closes⟩

end Declaration

/-! ### Members and files

From one declaration to all of them, members within members first. -/

/-- Whatever members are read of the tokens `us'`, so are some of `us`, which begin further in
front, and no more declarations are annotated. -/
def Leads (us us' : List Token) : Prop :=
  ∀ (ms : List Member) (closer : Token) (rest : List Token), Members us' ms closer rest →
    Member.NoneAnnotated ms → ∃ ms', Members us ms' closer rest ∧ Member.NoneAnnotated ms'

namespace Leads

variable {us' us'' : List Token} {m : Member}

theorem refl : Leads us us := fun ms _ _ members none => ⟨ms, members, none⟩

theorem member (h : MemberSpelled (t :: us) m us') (begins : t.BeginsMember)
    (none : Member.NoneAnnotated [m]) (later : Leads us' us'') : Leads (t :: us) us'' := by
  intro ms closer rest members none'
  obtain ⟨ms', members, none'⟩ := later _ _ _ members none'
  exact ⟨m :: ms', h.members begins members, none.cons none'⟩

end Leads

/-- One declaration, of which the members `inner` are read again: it is read as a member in which
nothing is annotated, in front of what is put behind it. -/
theorem OpeningSpelled.delivers_type {heading : Heading} {inner : List Member}
    {opener closer : Token} {body : List Token} {follows : List Change} {name : String}
    (h : OpeningSpelled ts heading opener body) (closes : closer.kind = .closing .brace)
    (within : ts <:+ all)
    (prepared : Declaration.isAnnotated ⟨heading, inner, opener.span, closer.span⟩ = true →
      Declaration.Prepared all w name ⟨heading, inner, opener.span, closer.span⟩)
    (vss : List (List Token)) (follow : Follows closer follows)
    (followed : List.Forall₂ Typeset (follows.flatMap Change.texts) vss)
    (next : Delivers source w true mid cs P)
    (members : ∀ {later : List Change} {Q : List Token → Prop},
      Delivers source w true (closer :: mid) later Q →
      (∀ us, Q us → Seam all (closer :: mid) us ∧
        ((∀ text, .other text closer.span ∉ inner) ∨ us.head? = some closer)) →
      Delivers source w true body (Declaration.changesIn w name inner ++ later) fun us =>
        Seam all body us ∧ ∃ us', Q us' ∧ Leads us us') :
    Delivers source w true ts
      (Declaration.changes w name ⟨heading, inner, opener.span, closer.span⟩ ++ (follows ++ cs))
      fun us => Seam all ts us ∧ (∃ u ∈ us.head?, u.Begins) ∧ ∃ m us',
        MemberSpelled us m (vss.flatten ++ us') ∧ Member.NoneAnnotated [m] ∧ P us' := by
  have known {a : Attribute} (mem : a ∈ heading.attributes) (known : a.isExpanded = true) :=
    prepared (List.any_eq_true.mpr ⟨a, mem, known⟩)
  have next := Declaration.delivers_closer vss closes rfl prepared follow followed next
  have next := members next fun us holds => ⟨holds.1, holds.2.1⟩
  have next := h.delivers within
    (fun a mem expanded => (known mem expanded).attributes a mem expanded)
    (fun ⟨a, mem, expanded⟩ => (known mem expanded).heading) next fun us holds => holds.1
  rw [Declaration.changes, List.append_assoc, List.append_assoc]
  refine next.mono ?_
  rintro us ⟨s, us', ⟨-, us₂, ⟨-, -, uss, closer', us₃, rfl, holds, formed, closes'⟩, leads⟩,
    opening⟩
  obtain ⟨ms, members, none⟩ := Formed.members formed closes' (vss.flatten ++ us₃)
  obtain ⟨ms', members, none⟩ := leads _ _ _ members none
  refine ⟨s, opening.begins, _, us₃, .type opening members, .type (fun a mem => ?_) none, holds⟩
  simpa using (List.mem_filter.mp mem).2

theorem Members.eq_closer {ms : List Member} {closer : Token} (h : Members (t :: ts) ms closer rest)
    (closes : t.kind = .closing .brace) : t = closer ∧ ts = rest ∧ ms = [] := by
  cases h with
  | close => exact ⟨rfl, rfl, rfl⟩
  | semicolon kind => rw [closes] at kind; cases kind
  | leaf begins | type begins => exact absurd closes begins.1

/-- What is made of the tokens of members is read as members in which nothing is annotated, as long
as what stands behind them is. The induction is on the members, and with it on the types nested in
them; the hypothesis `seam` is what the brace behind the members has to provide. -/
theorem Members.delivers {ms : List Member} {closer : Token} (h : Members ts ms closer rest)
    (name : String) (within : ts <:+ all) (signed : Signed all)
    (prepared : ∀ e ∈ Declaration.annotatedIn name ms, e.2.Prepared all w e.1)
    (next : Delivers source w true (closer :: rest) later P)
    (seam : ∀ us, P us → Seam all (closer :: rest) us ∧
      ((∀ text, .other text closer.span ∉ ms) ∨ us.head? = some closer)) :
    Delivers source w true ts (Declaration.changesIn w name ms ++ later) fun us =>
      Seam all ts us ∧ (ts = closer :: rest → P us) ∧ ∃ us', P us' ∧ Leads us us' := by
  induction h generalizing name later P with
  | close =>
    exact next.mono fun us holds => ⟨(seam us holds).1, fun _ => holds, us, holds, Leads.refl⟩
  | @semicolon ms t closer ts rest kind members ih =>
    have later := ih name ((List.suffix_cons _ _).trans within) prepared next seam
    refine (later.plain fun _ _ => .inr (.inr (.inr (.inr (.inr (.inl kind)))))).mono ?_
    rintro _ ⟨us', rfl, s, -, us₂, holds, leads⟩
    have front := s.front (List.suffix_cons t ts) within (cons_ne_of_suffix (List.suffix_refl _))
    rw [graft_cons (List.suffix_refl _), graft_self] at front
    refine ⟨front, ?_, us₂, holds, fun _ _ _ members none => ?_⟩
    · rintro made
      cases made
      rw [members.closes] at kind
      cases kind
    · obtain ⟨ms', members, none⟩ := leads _ _ _ members none
      exact ⟨ms', .semicolon kind members, none⟩
  | @leaf m ms t closer ts mid rest begins leaf members ih =>
    have noType := leaf.type?_eq_none
    have consumes : Consumes AtAttribute (t :: ts) mid := leaf.consumes
    have suffix := consumes.suffix
    rw [Declaration.changesIn_leaf noType]
    have next := ih name (suffix.trans within)
      (by cases m with
        | type => cases noType
        | «variable» | other => exact prepared)
      next fun us holds => ⟨(seam us holds).1, (seam us holds).2.imp_left fun none text mem =>
        none text (.tail _ mem)⟩
    refine (next.consume consumes).mono ?_
    rintro _ ⟨us', rfl, s, here, us₂, holds, leads⟩
    refine ⟨s.front suffix within (consumes.ne (List.suffix_refl _)), ?_, us₂, holds, ?_⟩
    · rintro made
      cases made
      exact absurd members.closes begins.1
    -- The member itself is not touched. It is read alike in front of what the rest became.
    have leaf := leaf.grafted s (signed.of_suffix within) within (List.suffix_refl _) ?_
    · rw [graft_self, graft_cons consumes.tail] at leaf
      rw [graft_cons consumes.tail]
      exact .member (.leaf leaf) begins (.leaf noType) leads
    · -- attributes in front of the closing brace, which stands there as before
      intro u head closes dangling
      obtain ⟨more, rfl⟩ := List.head?_eq_some_iff.mp head
      obtain ⟨rfl, rfl, rfl⟩ := members.eq_closer closes
      rw [graft_self]
      rcases (seam us' (here rfl)).2 with none | same
      · exact absurd (dangling ▸ .head _) (none u.text)
      · exact same
  | @type heading inner ms t opener innerCloser closer ts body mid rest begins opening innerMembers
      members innerIh ih =>
    have bodySuffix := opening.consumes.suffix
    have innerSuffix := (List.suffix_cons _ _).trans innerMembers.suffix
    -- Classes in a body are visited with the type around it and before those behind it.
    rw [Declaration.annotatedIn, Declaration.annotatedAs] at prepared
    obtain ⟨here, prepared⟩ := List.forall_mem_append.mp prepared
    obtain ⟨own, nested⟩ := List.forall_mem_append.mp here
    have next := ih name ((innerSuffix.trans bodySuffix).trans within) prepared next
      fun us holds => ⟨(seam us holds).1, (seam us holds).2.imp_left fun none text mem =>
        none text (.tail _ mem)⟩
    have next := opening.delivers_type innerMembers.closes within
      (fun annotated => own _ (by rw [if_pos annotated]; exact .head _)) [] .nothing .nil next
      fun next seam => (innerIh _ (bodySuffix.trans within) nested next seam).mono
        fun us holds => ⟨holds.1, holds.2.2⟩
    rw [Declaration.changesIn, List.append_assoc]
    refine next.mono ?_
    rintro us ⟨s, ⟨u, head, begins'⟩, m, us', spelled, none, -, -, us₂, holds, leads⟩
    refine ⟨s, ?_, us₂, holds, ?_⟩
    · rintro made
      cases made
      exact absurd members.closes begins.1
    · obtain ⟨more, rfl⟩ := List.head?_eq_some_iff.mp head
      exact .member spelled begins'.beginsMember none leads

/-- Nothing stands in front of a closing brace that begins the tokens. -/
theorem PrefixSpelled.of_closes {attributes : List Attribute} {modifiers : List String}
    (h : PrefixSpelled (t :: ts) attributes modifiers us) (closes : t.kind = .closing .brace) :
    us = t :: ts := by
  obtain ⟨attributes, modifiers⟩ := h
  cases attributes with
  | cons spelled =>
    obtain ⟨sign, more, made, kind, -⟩ := spelled.head
    cases made
    rw [closes] at kind
    cases kind
  | nil =>
    cases modifiers with
    | nil => rfl
    | cons starts =>
      have := Modifier.kind_of_isModifier starts
      rw [closes] at this
      cases this

/-- No file begins with a closing brace. -/
theorem FileSpelled.not_closes {ms : List Member} (h : FileSpelled (t :: ts) ms) :
    t.kind ≠ .closing .brace := by
  intro closes
  cases h with
  | semicolon kind =>
    rw [closes] at kind
    cases kind
  | leaf _ leaf =>
    cases leaf with
    | directive directive =>
      cases directive with
      | conditional pound | simple pound =>
        rw [closes] at pound
        cases pound
    | property _ front isSpecifier =>
      have := front.of_closes closes
      cases this
      have := Specifier.kind_of_ofToken? isSpecifier
      rw [closes] at this
      cases this
    | dangling _ front _ shorter =>
      have := front.of_closes closes
      cases this
      exact absurd shorter (Nat.lt_irrefl _)
    | other _ front _ noBrace =>
      have := front.of_closes closes
      cases this
      exact noBrace closes
  | type _ opening =>
    obtain ⟨u, head, begins⟩ := opening.begins
    cases head
    exact begins.beginsMember.1 closes

theorem MemberSpelled.file {m : Member} {ms : List Member} (h : MemberSpelled (t :: ts) m mid)
    (begins : t.BeginsMember) (later : FileSpelled mid ms) : FileSpelled (t :: ts) (m :: ms) := by
  cases h with
  | leaf leaf => exact .leaf begins.2 leaf later
  | type opening inner => exact .type begins.2 opening inner later

/-- Generated extensions are read in front of a file. -/
theorem Extending.file {vss : List (List Token)} (h : ∀ vs ∈ vss, Extending vs) {ms : List Member}
    (file : FileSpelled us ms) (none : Member.NoneAnnotated ms) :
    ∃ ms', FileSpelled (vss.flatten ++ us) ms' ∧ Member.NoneAnnotated ms' := by
  induction vss with
  | nil => exact ⟨ms, file, none⟩
  | cons vs vss ih =>
    obtain ⟨here, others⟩ := List.forall_mem_cons.mp h
    obtain ⟨ms', later, none⟩ := ih others
    obtain ⟨m, spelled, none'⟩ := @Extending.member _ here (vss.flatten ++ us)
    refine ⟨m :: ms', ?_, none'.cons none⟩
    obtain ⟨u, head, begins⟩ := here.begins
    obtain ⟨more, rfl⟩ := List.head?_eq_some_iff.mp head
    rw [List.flatten_cons, List.append_assoc]
    exact MemberSpelled.file spelled begins.beginsMember later

/-- What is made of the tokens of a file is read as a file in which nothing is annotated. The
induction is on the members of the file; behind each declaration stand the extensions of the classes
in it. -/
theorem FileSpelled.delivers {ms : List Member} (h : FileSpelled ts ms) (within : ts <:+ all)
    (signed : Signed all)
    (prepared : ∀ d ∈ ms.filterMap Member.type?, ∀ e ∈ d.annotated, e.2.Prepared all w e.1) :
    Delivers source w true ts ((ms.filterMap Member.type?).flatMap (·.allChanges w)) fun us =>
      Seam all ts us ∧ ∃ ms', FileSpelled us ms' ∧ Member.NoneAnnotated ms' := by
  induction h with
  | nil =>
    refine Delivers.done.mono ?_
    rintro _ rfl
    exact ⟨.refl, [], .nil, nofun⟩
  | @semicolon ms t ts kind file ih =>
    have later := ih ((List.suffix_cons _ _).trans within) prepared
    refine (later.plain fun _ _ => .inr (.inr (.inr (.inr (.inr (.inl kind)))))).mono ?_
    rintro _ ⟨us', rfl, s, ms', file, none⟩
    have front := s.front (List.suffix_cons t ts) within (cons_ne_of_suffix (List.suffix_refl _))
    rw [graft_cons (List.suffix_refl _), graft_self] at front
    exact ⟨front, ms', .semicolon kind file, none⟩
  | @leaf m ms t ts mid noSemicolon leaf file ih =>
    have noType := leaf.type?_eq_none
    have consumes : Consumes AtAttribute (t :: ts) mid := leaf.consumes
    have suffix := consumes.suffix
    rw [List.filterMap_cons_none noType] at prepared ⊢
    refine ((ih (suffix.trans within) prepared).consume consumes).mono ?_
    rintro _ ⟨us', rfl, s, ms', file', none⟩
    refine ⟨s.front suffix within (consumes.ne (List.suffix_refl _)), m :: ms', ?_,
      .cons (.leaf noType) none⟩
    have leaf := leaf.grafted s (signed.of_suffix within) within (List.suffix_refl _) ?_
    · rw [graft_self, graft_cons consumes.tail] at leaf
      rw [graft_cons consumes.tail]
      exact .leaf noSemicolon leaf file'
    · intro u head closes
      obtain ⟨more, rfl⟩ := List.head?_eq_some_iff.mp head
      exact absurd closes file.not_closes
  | @type heading inner ms t opener closer ts body mid noSemicolon opening members file ih =>
    have closes := members.closes
    have bodySuffix := opening.consumes.suffix
    have innerSuffix := (List.suffix_cons _ _).trans members.suffix
    simp only [List.filterMap_cons, Member.type?] at prepared ⊢
    obtain ⟨here, prepared⟩ := List.forall_mem_cons.mp prepared
    have extensions : ∀ text ∈
        (Declaration.ownFollow w ⟨heading, inner, opener.span, closer.span⟩).flatMap Change.texts,
        ∃ us, Typeset text us ∧ Extending us := by
      rw [Declaration.ownFollow]
      split
      · rw [List.flatMap_singleton]
        intro text mem
        obtain ⟨entry, annotated, mem⟩ := List.mem_flatMap.mp mem
        exact (here entry annotated).extensions text mem
      · exact List.forall_mem_nil _
    obtain ⟨vss, followed, extending⟩ := forall₂_of_forall extensions
    rw [Declaration.annotated, Declaration.annotatedAs] at here
    obtain ⟨own, nested⟩ := List.forall_mem_append.mp here
    have next := opening.delivers_type closes within
      (fun annotated => own _ (by rw [if_pos annotated]; exact .head _)) vss
      (Declaration.follows closes rfl) followed
      (ih ((innerSuffix.trans bodySuffix).trans within) prepared)
      fun next seam => (members.delivers _ (bodySuffix.trans within) signed nested next seam).mono
        fun us holds => ⟨holds.1, holds.2.2⟩
    rw [List.flatMap_cons, Declaration.allChanges, List.append_assoc]
    refine next.mono ?_
    rintro us ⟨s, ⟨u, head, begins⟩, m, us', spelled, none', -, ms', file', none⟩
    obtain ⟨ms', file', none⟩ := Extending.file extending file' none
    obtain ⟨more, rfl⟩ := List.head?_eq_some_iff.mp head
    exact ⟨s, _, spelled.file begins.beginsMember file', none'.cons none⟩

end CodableSynthesis
