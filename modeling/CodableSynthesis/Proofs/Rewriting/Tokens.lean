import CodableSynthesis.Proofs.Rewriting.Steps

/-!
The tokens of an expanded source text. They are those of the source with the announced changes,
unless everything between two names is taken out: then one name is left of the two.

* `fuses_around`: where the first two names that are fused can be.
* `Walked`: what the edits make of a text that tokens stand in.
* `Walked.keep`, `Walked.drop`: one step of a walk.
* `Walk.walked`: the tokens of a text behind any of its tokens.

`Walked` is the invariant of the walk, from the end of the source to its beginning. It says how the
new text begins, since the token in front has to end where it did: like the old text, or bare, where
an attribute was taken out directly behind a token. It says whether a name stands there, which is
the one case in which two tokens may become one. And it gives the tokens: the announced ones if no
names are fused, and fewer than announced if some are.

That the number of tokens decides is what makes the theorem an equivalence. Fused names are one
token less, and nothing in a text makes up for that.
-/

namespace CodableSynthesis

open Text (Position byteLength byteLength_append isWhiteSpace)
open Trivia (Whole)
open Lexeme (Spelling Stops EndsPlain startsName continuesName)

/-! ### Changes around one token

What is put around a token concerns that token only. So whether names are fused is a question for
the token and what is behind it. -/

variable {source : List Char} {t u : Token} {ts : List Token} {fills follows cs : List Change}

theorem Fills.spares (h : Fills t fills) (beyond : t.span.stop ≤ u.span.start)
    (proper : u.span.start < u.span.stop) : ∀ c ∈ fills, c.Spares u := by
  cases h with
  | nothing => nofun
  | fill _ same =>
    refine List.forall_mem_singleton.mpr (Change.spares_of_outside (.inr ?_))
    rw [Change.last, same]
    omega

theorem Follows.spares (h : Follows t follows) (beyond : t.span.stop ≤ u.span.start)
    (proper : u.span.start < u.span.stop) : ∀ c ∈ follows, c.Spares u := by
  cases h with
  | nothing => nofun
  | follow _ same =>
    refine List.forall_mem_singleton.mpr (Change.spares_of_outside (.inr ?_))
    rw [Change.last, same]
    omega

/-- What becomes of a token that changes are made next to. -/
theorem apply_around (fill : Fills t fills) (follow : Follows t follows)
    (spared : ∀ c ∈ cs, c.Spares t) :
    Change.apply (fills ++ (follows ++ cs)) t =
      fills.flatMap (Change.before t) ++ t.word :: follows.flatMap (Change.behind t) := by
  have before : cs.flatMap (Change.before t) = [] :=
    List.flatMap_eq_nil_iff.mpr fun c mem => (spared c mem).before
  have behind : cs.flatMap (Change.behind t) = [] :=
    List.flatMap_eq_nil_iff.mpr fun c mem => (spared c mem).behind
  have kept : cs.any (Change.drops t) = false :=
    List.any_eq_false.mpr fun c mem => by simp [(spared c mem).drops]
  cases fill <;> cases follow <;>
    simp [Change.apply, Change.before, Change.behind, Change.drops, before, behind, kept]

theorem drop_mem_around (fill : Fills t fills) (follow : Follows t follows) {a : Attribute} :
    .drop a ∈ fills ++ (follows ++ cs) ↔ .drop a ∈ cs := by
  cases fill <;> cases follow <;> simp

theorem covered_around (fill : Fills t fills) (follow : Follows t follows) {lo hi : Nat} :
    Change.Covered source (fills ++ (follows ++ cs)) lo hi ↔ Change.Covered source cs lo hi := by
  simp only [Change.Covered, drop_mem_around fill follow]

theorem keptName_around (fill : Fills t fills) (follow : Follows t follows) :
    Change.KeptName (fills ++ (follows ++ cs)) u ↔ Change.KeptName cs u := by
  cases fill <;> cases follow <;> simp [Change.KeptName, Change.drops]

/-- Names are left without anything between them behind a token, or it is one of them. -/
theorem fuses_around (fill : Fills t fills) (follow : Follows t follows)
    (spared : ∀ c ∈ cs, c.Spares t) (proper : t.span.start < t.span.stop)
    (bounds : ∀ u ∈ ts, t.span.stop ≤ u.span.start) :
    Change.Fuses source (fills ++ (follows ++ cs)) (t :: ts) ↔
      Change.Fuses source cs ts ∨ t.IsPlainName ∧
        ∃ u ∈ ts, Change.KeptName cs u ∧ Change.Covered source cs t.span.stop u.span.start := by
  have kept : cs.any (Change.drops t) = false :=
    List.any_eq_false.mpr fun c mem => by simp [(spared c mem).drops]
  simp only [Change.Fuses, Change.Fused, covered_around fill follow, keptName_around fill follow]
  constructor
  · rintro ⟨a, memA, b, memB, keptA, keptB, order, covered⟩
    rcases List.mem_cons.mp memA with rfl | laterA
    · rcases List.mem_cons.mp memB with rfl | laterB
      · exact absurd order (Nat.lt_irrefl _)
      · exact .inr ⟨keptA.1, b, laterB, keptB, covered⟩
    · rcases List.mem_cons.mp memB with rfl | laterB
      · have := bounds a laterA
        omega
      · exact .inl ⟨a, laterA, b, laterB, keptA, keptB, order, covered⟩
  · rintro (⟨a, memA, b, memB, fused⟩ | ⟨plain, b, memB, keptB, covered⟩)
    · exact ⟨a, .tail _ memA, b, .tail _ memB, fused⟩
    · have := bounds b memB
      exact ⟨t, .head _, b, .tail _ memB, ⟨plain, kept⟩, keptB, by omega, covered⟩

/-! ### A token in front of the rest

Where a token is kept, it has to end where it did. There are two cases: behind it the text begins as
before, or an attribute was directly behind it. -/

namespace Token.Sound

variable {rest left : List Char}

/-- A token stays what it is unless it is a name that another follows directly. -/
theorem meets (h : t.Sound rest) (joins : Like rest left ∨ Bare left ∧ t.EndsMember)
    (apart : ¬ (t.IsPlainName ∧ StartsName left)) : Stops t.chars left t.kind := by
  rcases joins with like | ⟨bare, ends⟩
  · exact like.stops h.stops
  · exact ends.stops fun ident plain =>
      endsName_of_bare bare fun starts => apart ⟨⟨ident, plain⟩, starts⟩

theorem meets_put (h : t.Sound rest) (follow : Follows t follows)
    (joins : Like rest left ∨ Bare left ∧ t.EndsMember)
    (apart : ¬ (t.IsPlainName ∧ StartsName left)) :
    Stops t.chars (Change.put follows ++ left) t.kind := by
  rcases follow.closes with rfl | closes
  · exact h.meets joins apart
  · rw [closes]
    trivial

theorem like (h : t.Sound rest) (joins : Like rest left ∨ Bare left ∧ t.EndsMember) :
    Like (t.chars ++ rest) (t.chars ++ left) := by
  rcases joins with like | ⟨-, ends⟩
  · exact like.append t.chars
  · obtain ⟨c, more, chars, noPoint, noPound⟩ := ends.head h.spelled
    rw [chars]
    exact .same noPoint noPound

end Token.Sound

theorem Token.Sound.proper {p : Position} {gap rest : List Char} (h : t.Sound rest)
    (span : t.span = .between (p.advance gap) (p.advance (gap ++ t.chars))) :
    t.span.start < t.span.stop := by
  obtain ⟨c, more, chars, -⟩ := h.spelled.head
  have := Text.byteLength_pos (show t.chars ≠ [] by simp [chars])
  rw [span]
  change (p.advance gap).offset < (p.advance (gap ++ t.chars)).offset
  rw [Position.offset_advance, Position.offset_advance, byteLength_append]
  omega

/-- What the edits around a token make of its text, and where those behind it begin. -/
theorem Walk.around {w : Writer} {p : Position} {next : Bool} {before gap rest new : List Char}
    (walk : Walk next ts cs) (fill : Fills t fills) (follow : Follows t follows)
    (made : source = before ++ (gap ++ (t.chars ++ rest))) (at_ : p = Position.start.advance before)
    (sound : t.Sound rest)
    (span : t.span = .between (p.advance gap) (p.advance (gap ++ t.chars)))
    (placed : Placed (p.advance (gap ++ t.chars)) ts rest)
    (sits : ∀ c ∈ fills ++ (follows ++ cs), c.Sits source w.indentWidth)
    (here : ∀ c ∈ fills, p.offset ≤ (c.edit source w.indentWidth).start)
    (edits : Edit.Made p.offset
      ((fills ++ (follows ++ cs)).map (Change.edit source w.indentWidth))
      (gap ++ (t.chars ++ rest)) new) :
    ∃ front left, new = front ++ (t.chars ++ (Change.put follows ++ left)) ∧
      Filled w t gap fills front ∧ (∀ c ∈ cs, t.span.stop ≤ (c.edit source w.indentWidth).start) ∧
      Edit.Made t.span.stop (cs.map (Change.edit source w.indentWidth)) rest left := by
  have offset : p.offset = byteLength before := by rw [at_, Rest.offset_start]
  have start : t.span.start = byteLength (before ++ gap) := by
    rw [byteLength_append, ← offset, ← Position.offset_advance, span]
    rfl
  have stop : t.span.stop = (p.advance (gap ++ t.chars)).offset := by rw [span]; rfl
  have stop' : t.span.stop = byteLength (before ++ (gap ++ t.chars)) := by
    rw [stop, Position.offset_advance, offset, byteLength_append before]
  have plain : EndsPlain (before ++ (gap ++ t.chars)) :=
    (sound.spelled.endsPlain.append gap).append before
  have made' : source = (before ++ (gap ++ t.chars)) ++ rest := by simp [made]
  have behind : ∀ c ∈ cs, t.span.stop ≤ (c.edit source w.indentWidth).start := fun c mem => by
    rw [stop']
    refine (sits c (by simp [mem])).start made' plain ?_
    rw [← stop', stop]
    exact walk.beyond placed c mem
  have followed : ∀ c ∈ follows, t.span.stop ≤ (c.edit source w.indentWidth).start := by
    cases follow with
    | nothing => nofun
    | follow _ same => exact List.forall_mem_singleton.mpr (Nat.le_of_eq (same ▸ rfl))
  rw [offset] at edits here
  obtain ⟨front, middle, rfl, filled, edits⟩ := fill.filled made sound.spelled start
    (fun c mem => sits c (by simp [mem])) here
    (stop' ▸ List.forall_mem_append.mpr ⟨followed, behind⟩) edits
  obtain ⟨left, rfl, later⟩ := follow.followed rfl (stop' ▸ edits)
  exact ⟨front, left, rfl, filled, behind, later⟩

/-! ### A whole walk -/

/-- What the edits make of a text that tokens stand in: `new` is what they make of `old`, which
begins at `p`. -/
structure Walked (source : List Char) (p : Position) (ready : Bool) (ts : List Token)
    (cs : List Change) (old new : List Char) : Prop where
  /-- Both begin alike, or an attribute is taken out that stands directly in front. -/
  joins : Like old new ∨ ready = true ∧ Bare new ∧ old.head? = some '@' ∧
    ∃ sign ∈ ts.head?, sign.kind = .atSign
  /-- A name stands directly in front if everything in front of it is taken out. -/
  named : StartsName new ↔
    ∃ u ∈ ts, Change.KeptName cs u ∧ Change.Covered source cs p.offset u.span.start
  /-- Without names that are fused, the tokens are those that are announced. -/
  apart : ¬ Change.Fuses source cs ts → Lexes new (Change.applyAll cs ts)
  /-- With such names there are fewer. -/
  fused : Change.Fuses source cs ts →
    ∃ ws, Lexes new ws ∧ ws.length < (Change.applyAll cs ts).length

namespace Walked

variable {p : Position} {w : Writer} {ready next : Bool} {before gap rest left new : List Char}

/-- In any case there are not more. -/
theorem lexes {old : List Char} (h : Walked source p ready ts cs old new) :
    ∃ ws, Lexes new ws ∧ ws.length ≤ (Change.applyAll cs ts).length := by
  by_cases fuses : Change.Fuses source cs ts
  · obtain ⟨ws, lexes, fewer⟩ := h.fused fuses
    exact ⟨ws, lexes, Nat.le_of_lt fewer⟩
  · exact ⟨_, h.apart fuses, Nat.le_refl _⟩

/-- Behind the last token nothing is changed. -/
theorem done {tail : List Char} (trailing : Trailing tail) :
    Walked source p ready [] [] tail tail := by
  refine ⟨.inl (.refl _), ?_, fun _ => .done trailing, ?_⟩
  · constructor
    · intro starts
      obtain ⟨_, _, _, _, _, same, -⟩ := (Lexes.done trailing).of_startsName starts
      cases same
    · rintro ⟨_, ⟨⟩, -⟩
  · rintro ⟨_, ⟨⟩, -⟩

/-! #### A token that is kept -/

theorem not_covered {lo hi : Nat} (beyond : ∀ c ∈ cs, lo < c.first) (proper : lo < hi) :
    ¬ Change.Covered source cs lo hi := by
  intro covered
  obtain ⟨a, mem, start, -⟩ := covered lo (Nat.le_refl _) proper
  have : lo < a.first.start := beyond _ mem
  rw [Edit.removal] at start
  exact absurd start (Nat.not_le.mpr this)

/-- In front of a token that is kept, the new text begins with a name only if the token is one and
nothing stands in front of it. -/
theorem named_keep {crossed : Bool} {front : List Char} (whole : Whole gap crossed)
    (sound : t.Sound rest) (fill : Fills t fills) (follow : Follows t follows)
    (start : t.span.start = p.offset + byteLength gap) (proper : t.span.start < t.span.stop)
    (beyond : ∀ c ∈ cs, t.span.stop ≤ c.first) (bounds : ∀ u ∈ ts, t.span.stop ≤ u.span.start)
    (shape : fills = [] ∧ front = gap ∨
      t.kind = .closing .brace ∧ ¬ StartsName (front ++ (t.chars ++ left))) :
    StartsName (front ++ (t.chars ++ left)) ↔
      ∃ u ∈ t :: ts, Change.KeptName (fills ++ (follows ++ cs)) u ∧
        Change.Covered source (fills ++ (follows ++ cs)) p.offset u.span.start := by
  simp only [covered_around fill follow, keptName_around fill follow]
  have spared : ∀ c ∈ cs, c.Spares t := fun c mem =>
    Change.spares_of_outside (.inl (by have := beyond c mem; omega))
  have kept : cs.any (Change.drops t) = false :=
    List.any_eq_false.mpr fun c mem => by simp [(spared c mem).drops]
  have further : ∀ c ∈ cs, p.offset < c.first := fun c mem => by
    have := beyond c mem
    omega
  -- nothing in front of the token is taken out, so it is the token itself
  have itself : (∃ u ∈ t :: ts, Change.KeptName cs u ∧
      Change.Covered source cs p.offset u.span.start) ↔ t.IsPlainName ∧ gap = [] := by
    constructor
    · rintro ⟨u, mem, name, covered⟩
      rcases List.mem_cons.mp mem with rfl | later
      · refine ⟨name.1, Text.byteLength_eq_zero ?_⟩
        by_cases empty : byteLength gap = 0
        · exact empty
        · exact absurd covered (not_covered further (by omega))
      · have := bounds u later
        exact absurd covered (not_covered further (by omega))
    · rintro ⟨plain, rfl⟩
      refine ⟨t, .head _, ⟨plain, kept⟩, fun i lo hi => ?_⟩
      rw [start, Text.byteLength_nil] at hi
      omega
  rw [itself]
  rcases shape with ⟨-, rfl⟩ | ⟨closes, other⟩
  · cases front with
    | nil =>
      rw [List.nil_append, startsName_spelling sound.spelled]
      simp [Token.IsPlainName]
    | cons c front =>
      have := whole.not_startsName nofun (t.chars ++ left)
      simpa using this
  · refine iff_of_false other ?_
    rintro ⟨⟨ident, -⟩, -⟩
    rw [closes] at ident
    cases ident

/-- An attribute that is taken out directly behind a token stands on its line. -/
theorem joins_keep (h : Walked source p next ts cs rest left) (placed : Placed p ts rest)
    (ends : next = true → AtAttribute ts → t.EndsMember) :
    Like rest left ∨ Bare left ∧ t.EndsMember := by
  rcases h.joins with like | ⟨ready, bare, touching, sign, mem, kind⟩
  · exact .inl like
  · refine .inr ⟨bare, ends ready ⟨sign, mem, kind, ?_⟩⟩
    obtain ⟨more, rfl⟩ := List.head?_eq_some_iff.mp mem
    obtain ⟨gap, later, rfl, -, whole, -⟩ := placed.head
    cases gap with
    | nil =>
      generalize sign.newlineBefore = crossed at whole
      cases whole
      rfl
    | cons c gap =>
      obtain ⟨d, more, made, head⟩ := whole.head nofun
      cases made
      cases touching
      rcases head with white | slash
      · cases white
      · cases slash

/-- Where a token is kept, both texts begin alike. -/
theorem like_keep {front : List Char} (sound : t.Sound rest)
    (joins : Like rest left ∨ Bare left ∧ t.EndsMember) (follow : Follows t follows)
    (shape : fills = [] ∧ front = gap ∨ t.kind = .closing .brace ∧
      Like (gap ++ (t.chars ++ rest)) (front ++ (t.chars ++ (Change.put follows ++ left))) ∧
        ¬ StartsName (front ++ (t.chars ++ (Change.put follows ++ left)))) :
    Like (gap ++ (t.chars ++ rest)) (front ++ (t.chars ++ (Change.put follows ++ left))) := by
  rcases shape with ⟨-, rfl⟩ | ⟨-, like, -⟩
  · refine Like.append ?_ front
    rcases follow.closes with rfl | closes
    · exact sound.like joins
    · rw [sound.spelled.eq_mark (c := '\x7d') (by rw [closes]; rfl)]
      exact .same (by decide) (by decide)
  · exact like

/-- The tokens of the text that begins in front of a token that is kept. -/
theorem lexes_keep {fuses : Prop} (h : Walked source p next ts cs rest left)
    (sound : t.Sound rest) (joins : Like rest left ∨ Bare left ∧ t.EndsMember)
    (follow : Follows t follows) (generated : ∀ c ∈ follows, ∀ text ∈ c.texts, Generated w text)
    (fusing : fuses ↔ Change.Fuses source cs ts ∨ t.IsPlainName ∧ StartsName left) :
    (¬ fuses → Lexes (t.chars ++ (Change.put follows ++ left))
        (t.word :: (follows.flatMap (Change.behind t) ++ Change.applyAll cs ts))) ∧
      (fuses → ∃ ws, Lexes (t.chars ++ (Change.put follows ++ left)) ws ∧ ws.length <
        (t.word :: (follows.flatMap (Change.behind t) ++ Change.applyAll cs ts)).length) := by
  constructor
  · intro none
    rw [fusing, not_or] at none
    exact .token sound.spelled (sound.meets_put follow joins none.2)
      (follow.lexes generated (h.apart none.1))
  · intro fuses
    by_cases meet : t.IsPlainName ∧ StartsName left
    · obtain ⟨⟨ident, plain⟩, starts⟩ := meet
      rcases follow.closes with rfl | closes
      · obtain ⟨ws, later, le⟩ := h.lexes
        obtain ⟨ws', fused, same⟩ := later.fuse starts (ident ▸ sound.spelled) plain
        refine ⟨ws', fused, ?_⟩
        rw [same, List.flatMap_nil, List.nil_append, List.length_cons]
        exact Nat.lt_succ_of_le le
      · rw [closes] at ident
        cases ident
    · obtain ⟨ws, later, fewer⟩ := h.fused ((fusing.mp fuses).resolve_right meet)
      refine ⟨_, .token sound.spelled (sound.meets_put follow joins meet)
        (follow.lexes generated later), ?_⟩
      simp only [List.length_cons, List.length_append]
      omega

/-- A token is kept. What stands directly behind it in the new text is what the invariant tells. -/
theorem keep {crossed : Bool} (made : source = before ++ (gap ++ (t.chars ++ rest)))
    (at_ : p = Position.start.advance before) (whole : Whole gap crossed) (sound : t.Sound rest)
    (span : t.span = .between (p.advance gap) (p.advance (gap ++ t.chars)))
    (placed : Placed (p.advance (gap ++ t.chars)) ts rest) (fill : Fills t fills)
    (follow : Follows t follows) (ends : next = true → AtAttribute ts → t.EndsMember)
    (walk : Walk next ts cs)
    (sits : ∀ c ∈ fills ++ (follows ++ cs), c.Sits source w.indentWidth)
    (generated : ∀ c ∈ fills ++ (follows ++ cs), ∀ text ∈ c.texts, Generated w text)
    (here : ∀ c ∈ fills, p.offset ≤ (c.edit source w.indentWidth).start)
    (edits : Edit.Made p.offset
      ((fills ++ (follows ++ cs)).map (Change.edit source w.indentWidth))
      (gap ++ (t.chars ++ rest)) new)
    (ih : ∀ {left : List Char},
      (∀ c ∈ cs, (p.advance (gap ++ t.chars)).offset ≤ (c.edit source w.indentWidth).start) →
      Edit.Made (p.advance (gap ++ t.chars)).offset
        (cs.map (Change.edit source w.indentWidth)) rest left →
      Walked source (p.advance (gap ++ t.chars)) next ts cs rest left) :
    Walked source p ready (t :: ts) (fills ++ (follows ++ cs)) (gap ++ (t.chars ++ rest)) new := by
  have start : t.span.start = p.offset + byteLength gap := by
    rw [span, ← Position.offset_advance]
    rfl
  have stop : t.span.stop = (p.advance (gap ++ t.chars)).offset := by rw [span]; rfl
  have proper := sound.proper span
  have beyond : ∀ c ∈ cs, t.span.stop ≤ c.first := stop ▸ walk.beyond placed
  have bounds := placed.bounds
  rw [← stop] at bounds
  obtain ⟨front, left, rfl, filled, behind, edits⟩ :=
    walk.around fill follow made at_ sound span placed sits here edits
  obtain ⟨lexFront, shape⟩ := filled.lexes whole (fun c mem => generated c (by simp [mem])) rest
    (Change.put follows ++ left)
  rw [stop] at behind edits
  have walked := ih behind edits
  -- What stands behind the token now begins as before, or the token ended a member.
  have joins := walked.joins_keep placed ends
  have spared : ∀ c ∈ cs, c.Spares t := fun c mem =>
    Change.spares_of_outside (.inl (by have := beyond c mem; omega))
  have fusing := @fuses_around source _ _ _ _ _ fill follow spared proper
    fun u mem => (bounds u mem).1
  rw [stop, ← walked.named] at fusing
  obtain ⟨apart, fused⟩ := walked.lexes_keep sound joins follow
    (fun c mem => generated c (by simp [mem])) fusing
  have applied : Change.applyAll (fills ++ (follows ++ cs)) (t :: ts) =
      fills.flatMap (Change.before t) ++
        t.word :: (follows.flatMap (Change.behind t) ++ Change.applyAll cs ts) := by
    have later : Change.applyAll (fills ++ (follows ++ cs)) ts = Change.applyAll cs ts := by
      rw [← List.append_assoc]
      refine Change.applyAll_append fun u mem => ?_
      obtain ⟨after, proper⟩ := bounds u mem
      exact List.forall_mem_append.mpr ⟨fill.spares after proper, follow.spares after proper⟩
    rw [Change.applyAll, List.flatMap_cons, apply_around fill follow spared]
    rw [Change.applyAll] at later
    rw [later]
    simp
  refine ⟨.inl (like_keep sound joins follow shape), ?_, fun none => ?_, fun fuses => ?_⟩
  · refine @named_keep _ _ _ _ _ _ _ _ _ (Change.put follows ++ left) _ _
      whole sound fill follow start proper beyond (fun u mem => (bounds u mem).1) ?_
    exact shape.imp_right fun closes => ⟨closes.1, closes.2.2⟩
  · rw [applied]
    exact lexFront (apart none)
  · obtain ⟨ws, lexes, fewer⟩ := fused fuses
    refine ⟨_, lexFront lexes, ?_⟩
    rw [applied, List.length_append, List.length_append]
    omega

/-! #### An attribute that is taken out -/

section Drop

variable {a : Attribute} {sign last : Token} {inner : List Token} {lo hi : Nat}

/-- Behind what is taken out with an attribute, that attribute covers nothing. -/
theorem covered_behind (stop : (Edit.removal source a.span).stop ≤ lo) :
    Change.Covered source (.drop a :: cs) lo hi ↔ Change.Covered source cs lo hi := by
  constructor
  · intro covered i above below
    obtain ⟨b, mem, first, last⟩ := covered i above below
    rcases List.mem_cons.mp mem with same | mem
    · cases same
      omega
    · exact ⟨b, mem, first, last⟩
  · intro covered i above below
    obtain ⟨b, mem, within⟩ := covered i above below
    exact ⟨b, .tail _ mem, within⟩

/-- From where an attribute begins, everything is taken out if it is from behind the attribute. -/
theorem covered_from (start : (Edit.removal source a.span).start = lo)
    (stop : lo ≤ (Edit.removal source a.span).stop) :
    Change.Covered source (.drop a :: cs) lo hi ↔
      Change.Covered source cs (Edit.removal source a.span).stop hi := by
  constructor
  · intro covered
    refine (covered_behind (Nat.le_refl _)).mp fun i above below => ?_
    exact covered i (Nat.le_trans stop above) below
  · intro covered i above below
    by_cases within : i < (Edit.removal source a.span).stop
    · exact ⟨a, .head _, start ▸ above, within⟩
    · obtain ⟨b, mem, within⟩ := covered i (Nat.le_of_not_lt within) below
      exact ⟨b, .tail _ mem, within⟩

theorem drops_attribute {text : List Char} (stands : Stands p (sign :: (inner ++ last :: ts)) text)
    (first : a.first = sign.span) (ends : a.last = last.span) :
    ∀ u ∈ sign :: (inner ++ [last]), (Change.drop a).drops u = true := by
  intro u mem
  simp only [Change.drops, Bool.and_eq_true, decide_eq_true_eq, first, ends]
  exact stands.between u mem

/-- The tokens of an attribute are dropped, and nothing else is changed by that. -/
theorem spares_drop {text : List Char} (stands : Stands p (sign :: (inner ++ last :: ts)) text)
    (ends : a.last = last.span) : ∀ u ∈ ts, (Change.drop a).Spares u := by
  intro u mem
  have behind := (List.pairwise_append.mp (List.pairwise_cons.mp stands.ordered).2).2.1
  have after := (List.pairwise_cons.mp behind).1 u mem
  have proper := (stands.bounds u (by simp [mem])).2
  refine Change.spares_of_outside (.inr ?_)
  rw [Change.last, ends]
  omega

/-- Nothing becomes of the tokens of an attribute that is dropped. -/
theorem apply_attribute {text : List Char} (stands : Stands p (sign :: (inner ++ last :: ts)) text)
    (first : a.first = sign.span) (ends : a.last = last.span)
    (beyond : ∀ c ∈ cs, last.span.stop ≤ c.first) :
    ∀ u ∈ sign :: (inner ++ [last]), Change.apply (.drop a :: cs) u = [] := by
  intro u mem
  have dropped := drops_attribute stands first ends u mem
  have within := (stands.between u mem).2
  have proper := (stands.bounds u (by
    have : u ∈ (sign :: (inner ++ [last])) ++ ts := List.mem_append_left _ mem
    simpa using this)).2
  have spared : ∀ c ∈ cs, c.Spares u := fun c inside =>
    Change.spares_of_outside (.inl (by have := beyond c inside; omega))
  have before : cs.flatMap (Change.before u) = [] :=
    List.flatMap_eq_nil_iff.mpr fun c inside => (spared c inside).before
  have behind : cs.flatMap (Change.behind u) = [] :=
    List.flatMap_eq_nil_iff.mpr fun c inside => (spared c inside).behind
  simp [Change.apply, before, behind, dropped, Change.before, Change.behind]

/-- The names that are kept are those behind the attribute. -/
theorem keptName_attribute {text : List Char}
    (stands : Stands p (sign :: (inner ++ last :: ts)) text) (first : a.first = sign.span)
    (ends : a.last = last.span) (u : Token) (mem : u ∈ sign :: (inner ++ last :: ts)) :
    Change.KeptName (.drop a :: cs) u ↔ u ∈ ts ∧ Change.KeptName cs u := by
  have split : u ∈ sign :: (inner ++ [last]) ∨ u ∈ ts := by
    rw [← List.mem_append]
    simpa using mem
  have spared := spares_drop stands ends
  rcases split with inside | later
  · have dropped := drops_attribute stands first ends u inside
    constructor
    · rintro ⟨-, kept⟩
      rw [List.any_cons, dropped] at kept
      cases kept
    · rintro ⟨later, -⟩
      rw [(spared u later).drops] at dropped
      cases dropped
  · rw [show Change.drop a :: cs = [.drop a] ++ cs from rfl,
      Change.keptName_append (List.forall_mem_singleton.mpr (spared u later))]
    simp [later]

/-- The new text begins with a name if the gap in front of the attribute is empty and what is left
behind it begins with one. -/
theorem named_drop {crossed : Bool} {text : List Char} (whole : Whole gap crossed)
    (stands : Stands p (sign :: (inner ++ last :: ts)) text) (first : a.first = sign.span)
    (ends : a.last = last.span) (start : sign.span.start = p.offset + byteLength gap)
    (beyond : ∀ c ∈ cs, last.span.stop ≤ c.first)
    (stop : sign.span.start ≤ (Edit.removal source a.span).stop)
    (named : StartsName left ↔ ∃ u ∈ ts, Change.KeptName cs u ∧
      Change.Covered source cs (Edit.removal source a.span).stop u.span.start) :
    StartsName (gap ++ left) ↔ ∃ u ∈ sign :: (inner ++ last :: ts),
      Change.KeptName (.drop a :: cs) u ∧
        Change.Covered source (.drop a :: cs) p.offset u.span.start := by
  have begins : (Edit.removal source a.span).start = sign.span.start :=
    show a.first.start = _ from congrArg _ first
  have inAttribute := stands.between last (by simp)
  have proper := (stands.bounds last (by simp)).2
  have inOrder := (List.pairwise_cons.mp stands.ordered).1
  have behindSign := (stands.bounds sign (.head _)).2
  by_cases empty : gap = []
  · subst empty
    rw [Text.byteLength_nil, Nat.add_zero] at start
    rw [List.nil_append, named]
    constructor
    · rintro ⟨u, mem, kept, covered⟩
      have inside : u ∈ sign :: (inner ++ last :: ts) := by simp [mem]
      exact ⟨u, inside, (keptName_attribute stands first ends u inside).mpr ⟨mem, kept⟩,
        (covered_from (begins.trans start) (start ▸ stop)).mpr covered⟩
    · rintro ⟨u, inside, kept, covered⟩
      obtain ⟨mem, kept⟩ := (keptName_attribute stands first ends u inside).mp kept
      exact ⟨u, mem, kept, (covered_from (begins.trans start) (start ▸ stop)).mp covered⟩
  · have some_ := Text.byteLength_pos empty
    refine iff_of_false (whole.not_startsName empty left) ?_
    rintro ⟨u, inside, kept, covered⟩
    obtain ⟨mem, -⟩ := (keptName_attribute stands first ends u inside).mp kept
    have further : ∀ c ∈ Change.drop a :: cs, p.offset < c.first := by
      refine List.forall_mem_cons.mpr ⟨?_, fun c later => ?_⟩
      · rw [Change.first, first]
        omega
      · have := beyond c later
        omega
    have := inOrder u (by simp [mem])
    exact not_covered further (by omega) covered

/-- What is left behind an attribute goes on with a name only if it begins one. -/
theorem bare_behind {old : List Char} (h : Walked source p true ts cs old left)
    (stands : Stands p ts old) (goesOn : GoesOn ts)
    (plain : ∀ c ∈ old.head?, isWhiteSpace c = false) : Bare left := by
  rcases h.joins with like | ⟨-, bare, -⟩
  · refine like.bare ?_
    obtain ⟨n, first, name⟩ := goesOn
    obtain ⟨more, rfl⟩ := List.head?_eq_some_iff.mp first
    cases stands with
    | @token gap _ _ _ _ whole sound _ _ =>
      intro c head
      cases gap with
      | nil =>
        obtain ⟨d, chars, spelled, -⟩ := sound.spelled.head
        rcases name with isSign | isName
        · rw [sound.spelled.eq_mark (by rw [isSign]; rfl)] at head
          cases head
          exact fun continues => absurd continues (by decide)
        · obtain ⟨e, first, starts⟩ :=
            (@startsName_spelling _ _ [] sound.spelled).mpr isName
          rw [spelled] at first head
          cases first
          cases head
          exact fun _ => starts
      | cons d gap =>
        obtain ⟨e, _, made, white | slash⟩ := whole.head nofun
        · cases made
          rw [plain d rfl] at white
          cases white
        · cases made
          cases head
          subst slash
          exact fun continues => absurd continues (by decide)
  · exact bare

/-- The text `old` behind `before` begins with an attribute in front of the tokens `ts`; `cut` is
what is taken out with it. -/
structure TakenOut (source before : List Char) (a : Attribute) (sign last : Token)
    (ts : List Token) (old gap cut back : List Char) : Prop where
  /-- In front of the attribute there is a gap, which stays. -/
  made : old = gap ++ (cut ++ back)
  /-- It is a whole one. -/
  whole : ∃ crossed, Whole gap crossed
  /-- If it is empty, the text begins with the sign. -/
  touching : gap = [] → old.head? = some '@'
  /-- The attribute begins behind the gap. -/
  start : sign.span.start = byteLength (before ++ gap)
  /-- What is taken out ends behind its white space. -/
  stop : (Edit.removal source a.span).stop = byteLength (before ++ (gap ++ cut))
  /-- The other tokens stand in what is left. -/
  stands : Stands (Position.start.advance (before ++ (gap ++ cut))) ts back
  /-- It does not begin with white space. -/
  plain : ∀ c ∈ back.head?, isWhiteSpace c = false
  /-- In the source they are placed behind the attribute. -/
  placed : ∃ q text, q.offset = last.span.stop ∧ Placed q ts text

/-- How an attribute stands in its text, and what is taken out with it. -/
theorem takenOut {old : List Char} (made : source = before ++ old)
    (at_ : p = Position.start.advance before)
    (stands : Stands p (sign :: (inner ++ last :: ts)) old) (kind : sign.kind = .atSign)
    (first : a.first = sign.span) (ends : a.last = last.span) (goesOn : GoesOn ts)
    (takes : (Edit.removal source a.span).TakesOut source a) :
    ∃ gap cut back, TakenOut source before a sign last ts old gap cut back := by
  cases stands with
  | @token gap crossed _ _ rest whole sound span later =>
    obtain ⟨seen, left, rfl, placed, -, stop⟩ := later.split_last
    obtain ⟨-, front, body, space, back, replaces, begins, finishes, white, plain⟩ := takes
    have start : sign.span.start = byteLength (before ++ gap) := by
      rw [span, byteLength_append, ← Rest.offset_start before, ← at_, ← Position.offset_advance]
      rfl
    have stop' : last.span.stop = byteLength (before ++ (gap ++ (sign.chars ++ seen))) := by
      rw [stop, at_, ← Position.advance_append, ← Position.advance_append, Rest.offset_start,
        List.append_assoc gap]
    have sign_ : sign.chars = ['@'] := sound.spelled.eq_mark (by rw [kind]; rfl)
    rw [first, start] at begins
    rw [ends, stop'] at finishes
    obtain ⟨rfl, split⟩ := Text.append_inj_of_byteLength
      (show (before ++ gap) ++ (sign.chars ++ (seen ++ left)) = front ++ (body ++ space ++ back) by
        rw [← replaces.made, made, List.append_assoc]) begins
    obtain ⟨rfl, rfl⟩ := Text.append_inj_of_byteLength
      (show (sign.chars ++ seen) ++ left = body ++ (space ++ back) by simpa using split)
      (by simp only [byteLength_append] at finishes ⊢; omega)
    obtain ⟨n, next, -⟩ := goesOn
    obtain ⟨more, rfl⟩ := List.head?_eq_some_iff.mp next
    refine ⟨gap, sign.chars ++ seen ++ space, back, by simp, ⟨_, whole⟩, ?_, start, ?_, ?_, plain,
      ⟨_, _, stop.symm, placed⟩⟩
    · rintro rfl
      rw [sign_]
      rfl
    · rw [replaces.stop]
      simp
    · have := placed.stands.strip white
      simpa [at_] using this

/-- What the edits make of a text that begins with an attribute that is taken out. -/
theorem TakenOut.edited {old cut back : List Char}
    (out : TakenOut source before a sign last ts old gap cut back) (first : a.first = sign.span)
    (edits : Edit.Made (byteLength before)
      ((Change.drop a :: cs).map (Change.edit source w.indentWidth)) old new) :
    ∃ left, new = gap ++ left ∧ Edit.Made (Edit.removal source a.span).stop
      (cs.map (Change.edit source w.indentWidth)) back left := by
  have begins : (Edit.removal source a.span).start = sign.span.start :=
    show a.first.start = _ from congrArg _ first
  rw [out.made] at edits
  obtain ⟨left, rfl, rest⟩ := edits.first
    (by rw [Change.edit, begins, out.start, byteLength_append])
    (by rw [Change.edit, begins, out.start, out.stop, ← byteLength_append, List.append_assoc])
  exact ⟨left, rfl, rest⟩

/-- Names are left without anything between them behind an attribute, or nowhere. -/
theorem TakenOut.fuses_iff {old cut back : List Char}
    (out : TakenOut source before a sign last ts old gap cut back)
    (stands : Stands p (sign :: (inner ++ last :: ts)) old) (first : a.first = sign.span)
    (ends : a.last = last.span) :
    Change.Fuses source (.drop a :: cs) (sign :: (inner ++ last :: ts)) ↔
      Change.Fuses source cs ts := by
  have bounds := out.stands.bounds
  rw [Rest.offset_start, ← out.stop] at bounds
  have kept := @keptName_attribute _ cs _ _ _ _ _ _ stands first ends
  constructor
  · rintro ⟨t, memT, u, memU, keptT, keptU, order, covered⟩
    obtain ⟨memT, keptT⟩ := (kept t memT).mp keptT
    obtain ⟨memU, keptU⟩ := (kept u memU).mp keptU
    have := bounds t memT
    exact ⟨t, memT, u, memU, keptT, keptU, order,
      (covered_behind (by omega)).mp covered⟩
  · rintro ⟨t, memT, u, memU, keptT, keptU, order, covered⟩
    have insideT : t ∈ sign :: (inner ++ last :: ts) := by simp [memT]
    have insideU : u ∈ sign :: (inner ++ last :: ts) := by simp [memU]
    have := bounds t memT
    exact ⟨t, insideT, u, insideU, (kept t insideT).mpr ⟨memT, keptT⟩,
      (kept u insideU).mpr ⟨memU, keptU⟩, order, (covered_behind (by omega)).mpr covered⟩

/-- An attribute is dropped. What stands in front of it meets what stands behind its white space. -/
theorem drop {old : List Char} (made : source = before ++ old)
    (at_ : p = Position.start.advance before)
    (stands : Stands p (sign :: (inner ++ last :: ts)) old) (kind : sign.kind = .atSign)
    (first : a.first = sign.span) (ends : a.last = last.span) (goesOn : GoesOn ts)
    (walk : Walk true ts cs) (takes : (Edit.removal source a.span).TakesOut source a)
    (ordered : ((Change.drop a :: cs).map (Change.edit source w.indentWidth)).Pairwise Edit.Before)
    (edits : Edit.Made p.offset ((Change.drop a :: cs).map (Change.edit source w.indentWidth))
      old new)
    (ih : ∀ {before' back left : List Char}, source = before' ++ back →
      Stands (Position.start.advance before') ts back →
      (∀ c ∈ cs, (Position.start.advance before').offset ≤
        (c.edit source w.indentWidth).start) →
      Edit.Made (Position.start.advance before').offset
        (cs.map (Change.edit source w.indentWidth)) back left →
      Walked source (Position.start.advance before') true ts cs back left) :
    Walked source p true (sign :: (inner ++ last :: ts)) (.drop a :: cs) old new := by
  obtain ⟨gap, cut, back, out⟩ := takenOut made at_ stands kind first ends goesOn takes
  obtain ⟨_, whole⟩ := out.whole
  obtain ⟨q, text, reached, placed⟩ := out.placed
  have beyond : ∀ c ∈ cs, last.span.stop ≤ c.first := reached ▸ walk.beyond placed
  have offset : p.offset = byteLength before := by rw [at_, Rest.offset_start]
  rw [offset] at edits
  obtain ⟨left, rfl, rest⟩ := out.edited first edits
  obtain rfl := out.made
  have stop : (Edit.removal source a.span).stop =
      (Position.start.advance (before ++ (gap ++ cut))).offset := by
    rw [out.stop, Rest.offset_start]
  rw [stop] at rest
  obtain ⟨after, -⟩ := List.pairwise_cons.mp ordered
  have walked := ih (by simp [made]) out.stands
    (fun c mem => stop ▸ (after _ (List.mem_map_of_mem mem)).1) rest
  have named := walked.named
  rw [← stop] at named
  have forward : sign.span.start ≤ (Edit.removal source a.span).stop := by
    rw [out.start, out.stop, ← List.append_assoc, byteLength_append (before ++ gap)]
    exact Nat.le_add_right _ _
  have applied : Change.applyAll (.drop a :: cs) (sign :: (inner ++ last :: ts)) =
      Change.applyAll cs ts := by
    have none := apply_attribute stands first ends beyond
    have later := @Change.applyAll_append [.drop a] cs ts fun u mem =>
      List.forall_mem_singleton.mpr (spares_drop stands ends u mem)
    rw [show sign :: (inner ++ last :: ts) = (sign :: (inner ++ [last])) ++ ts by simp,
      Change.applyAll, List.flatMap_append, List.flatMap_eq_nil_iff.mpr none, List.nil_append]
    exact later
  -- The dropped tokens take no part in a fusion, so that it is one of the rest.
  have fusing : Change.Fuses source (.drop a :: cs) (sign :: (inner ++ last :: ts)) ↔ _ :=
    out.fuses_iff stands first ends
  refine ⟨?_, ?_, fun none => ?_, fun fuses => ?_⟩
  · by_cases empty : gap = []
    · have bare := walked.bare_behind out.stands goesOn out.plain
      exact .inr ⟨rfl, by simpa [empty] using bare, out.touching empty, sign, rfl, kind⟩
    · exact .inl (whole.like empty _ _)
  · exact named_drop whole stands first ends (by rw [out.start, offset, byteLength_append]) beyond
      forward named
  · rw [applied]
    exact .gap whole (walked.apart fun fuses => none (fusing.mpr fuses))
  · obtain ⟨ws, lexes, fewer⟩ := walked.fused (fusing.mp fuses)
    rw [applied]
    exact ⟨ws, .gap whole lexes, fewer⟩

end Drop

end Walked

/-- The tokens of a text behind any token of the source: those of the source with the changes made
along them, unless names are left without anything between them. -/
theorem Walk.walked {w : Writer} {ready : Bool} {p : Position} {before old new : List Char}
    (h : Walk ready ts cs) (made : source = before ++ old)
    (at_ : p = Position.start.advance before) (stands : Stands p ts old)
    (sits : ∀ c ∈ cs, c.Sits source w.indentWidth)
    (generated : ∀ c ∈ cs, ∀ text ∈ c.texts, Generated w text)
    (ordered : (cs.map (Change.edit source w.indentWidth)).Pairwise Edit.Before)
    (later : ∀ c ∈ cs, p.offset ≤ (c.edit source w.indentWidth).start)
    (edits : Edit.Made p.offset (cs.map (Change.edit source w.indentWidth)) old new) :
    Walked source p ready ts cs old new := by
  induction h generalizing p before old new with
  | done =>
    cases edits
    cases stands with
    | done trailing => exact .done trailing
  | @keep ready next t ts fills follows cs fill follow ends walk ih =>
    cases stands with
    | @token gap crossed _ _ rest whole sound span placed =>
      refine .keep made at_ whole sound span placed fill follow ends walk sits generated
        (fun c mem => later c (by simp [mem])) edits fun {left} behind edits => ?_
      rw [List.map_append, List.map_append] at ordered
      have ordered := (List.pairwise_append.mp (List.pairwise_append.mp ordered).2.1).2.1
      have made' : source = (before ++ (gap ++ t.chars)) ++ rest := by simp [made]
      exact ih made' (by simp [at_]) placed.stands (fun c mem => sits c (by simp [mem]))
        (fun c mem => generated c (by simp [mem])) ordered behind edits
  | drop kind first ends goesOn walk ih =>
    refine .drop made at_ stands kind first ends goesOn walk (sits _ (.head _)) ordered edits ?_
    intro before' back left made stands later edits
    refine ih made rfl stands (fun c mem => sits c (.tail _ mem))
      (fun c mem => generated c (.tail _ mem)) ?_ later edits
    exact (List.pairwise_cons.mp ordered).2

end CodableSynthesis
