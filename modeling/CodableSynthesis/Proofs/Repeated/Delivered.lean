import CodableSynthesis.Proofs.Joining.Grafts
import CodableSynthesis.Proofs.Repeated.Typeset
import CodableSynthesis.Proofs.Rewriting.Preserved

/-!
The tokens of an expanded source with their flags: whether a line break stands in front of a token,
and whether anything does. A token keeps its flags unless something is put in or taken out directly
in front of it.

* `Reflagged`: the same tokens but for the flags of the first.
* `Applies`: the edits that are made from a place in the source on, and what they make of the text
  there.
* `Delivers`: what is known of the tokens that the changes leave of some tokens.
* `Delivers.keep`, `Delivers.drop`: the steps along the tokens of a source.
* `FileSpelled.rewritten`: an expanded source has the tokens that are delivered.

`Rewriting` follows the changes along the tokens and shows which words the output has. To read the
output again the flags matter as well: a modifier, an initializer or generic arguments may end at a
line break, and a dot counts only where it touches. So the walk is made once more with a predicate
on the tokens that come out, which is what a later module wants to know of them.

The gap in front of the first token is left open in `Delivers`, because what stands in front of it
in the output is known only to the step before. `Reflagged` is the little that can change:
`Delivers.out` gives tokens that satisfy the predicate, and the actual ones differ from them in the
flags of the first.
-/

namespace CodableSynthesis

open Text (Position byteLength byteLength_append isWhiteSpace)
open Trivia (Whole)
open Lexeme (Spelling Stops EndsPlain)

variable {source before gap rest new : List Char} {w : Writer} {t : Token} {ts : List Token}
  {fills follows cs : List Change} {P Q : List Token → Prop}

/-! ### The first token of a text -/

/-- The first token of a text, and the gap in front of it. -/
theorem Stands.head {p : Position} {text : List Char} (h : Stands p (t :: ts) text) :
    ∃ gap crossed rest, text = gap ++ (t.chars ++ rest) ∧ Whole gap crossed ∧ t.Sound rest ∧
      t.span = .between (p.advance gap) (p.advance (gap ++ t.chars)) ∧
      Placed (p.advance (gap ++ t.chars)) ts rest ∧
      (Placed p (t :: ts) text →
        { t with newlineBefore := crossed, touches := gap.isEmpty } = t) := by
  by_cases placed : Placed p (t :: ts) text
  · obtain ⟨gap, rest, made, touches, whole, sound, span, later⟩ := placed.head
    exact ⟨gap, _, rest, made, whole, sound, span, later, fun _ => by rw [← touches]⟩
  · cases h with
    | token whole sound span later =>
      exact ⟨_, _, _, rfl, whole, sound, span, later, fun h => absurd h placed⟩

/-- The gap in front of the first token, given where that token begins. -/
theorem Placed.gap_eq {p : Position} {text left : List Char}
    (h : Placed p (t :: ts) text) (made : text = gap ++ left)
    (start : t.span.start = p.offset + byteLength gap) :
    Whole gap t.newlineBefore ∧ t.touches = gap.isEmpty := by
  obtain ⟨gap', rest, made', touches, whole, -, span, -⟩ := h.head
  have same : gap = gap' := by
    refine (Text.append_inj_of_byteLength (made.symm.trans made') ?_).1
    rw [span] at start
    have := start.symm.trans (Position.offset_advance p gap')
    omega
  rw [same]
  exact ⟨whole, touches⟩

/-- The same tokens but for the flags of the first. -/
inductive Reflagged : List Token → List Token → Prop
  | nil : Reflagged [] []
  /-- The first token has any flags. -/
  | cons {t : Token} {ts : List Token} (newlineBefore touches : Bool) :
      Reflagged (t :: ts) ({ t with newlineBefore, touches } :: ts)

namespace Reflagged

theorem refl (us : List Token) : Reflagged us us := by
  cases us with
  | nil => exact .nil
  | cons u us => exact .cons u.newlineBefore u.touches

end Reflagged

/-- What is left of a text is made of the same tokens behind another gap. Its first token takes the
flags of the two gaps together. -/
theorem Cut.reflagged {left : List Char} {crossed : Bool} {ls : List Lexeme}
    {vs : List Token} (cut : Cut ls left) (becomes : List.Forall₂ Lexeme.Becomes ls vs)
    (whole : Whole gap crossed) :
    ∃ ls' vs', Cut ls' (gap ++ left) ∧ List.Forall₂ Lexeme.Becomes ls' vs' ∧
      (vs = [] ∧ vs' = [] ∨ ∃ v vs₁, vs = v :: vs₁ ∧
        vs' = { v with newlineBefore := crossed || v.newlineBefore,
                       touches := gap.isEmpty && v.touches } :: vs₁) := by
  cases cut with
  | done trailing =>
    cases becomes
    exact ⟨[], [], .done (trailing.behind whole), .nil, .inl ⟨rfl, rfl⟩⟩
  | @lexeme gap' kind text rest ls whole' spelled stops cut =>
    rw [← List.append_assoc]
    cases becomes with
    | @cons _ v _ vs here becomes =>
      refine ⟨⟨⟨gap ++ gap'.text, crossed || gap'.crossed⟩, kind, text⟩ :: ls, _,
        .lexeme (whole.append whole') spelled stops cut, ?_, .inr ⟨v, vs, rfl, rfl⟩⟩
      refine .cons ⟨here.kind, here.text, ?_, ?_⟩ becomes
      · rw [← here.crossed]
      · rw [← here.touches]
        cases gap <;> rfl

theorem Walked.TakenOut.flags {a : Attribute} {sign last : Token} {us : List Token}
    {old cut back : List Char} (out : TakenOut source before a sign last ts old gap cut back) :
    ∃ crossed, Whole gap crossed ∧
      (Placed (Position.start.advance before) (sign :: us) old →
        crossed = sign.newlineBefore ∧ gap.isEmpty = sign.touches) := by
  by_cases placed : Placed (Position.start.advance before) (sign :: us) old
  · obtain ⟨whole, touches⟩ := placed.gap_eq out.made
      (by rw [out.start, Rest.offset_start, byteLength_append])
    exact ⟨_, whole, fun _ => ⟨rfl, touches.symm⟩⟩
  · obtain ⟨crossed, whole⟩ := out.whole
    exact ⟨crossed, whole, fun h => absurd h placed⟩

/-! ### Edits made from a place on -/

/-- The edits for the changes `cs` make `new` of `old`, which is what stands behind `before` in the
source text and has the tokens `ts`. No two names are left without anything between them. -/
structure Applies (source : List Char) (w : Writer) (before : List Char) (ts : List Token)
    (cs : List Change) (old new : List Char) : Prop where
  /-- What stands in front, and what the edits are made in. -/
  made : source = before ++ old
  /-- That text has the tokens, each at its place. -/
  stands : Stands (Position.start.advance before) ts old
  /-- Each change is at a place it may be at. -/
  sits : ∀ c ∈ cs, c.Sits source w.indentWidth
  /-- Each change puts in what was generated. -/
  generated : ∀ c ∈ cs, ∀ text ∈ c.texts, Generated w text
  /-- The edits follow one another. -/
  ordered : (cs.map (Change.edit source w.indentWidth)).Pairwise Edit.Before
  /-- None of them is in front of the text. -/
  later : ∀ c ∈ cs, byteLength before ≤ (c.edit source w.indentWidth).start
  /-- They make the new text of the old. -/
  edits : Edit.Made (byteLength before) (cs.map (Change.edit source w.indentWidth)) old new
  /-- No two names are joined. -/
  apart : ¬ Change.Fuses source cs ts

namespace Applies

variable {old : List Char}

/-- The walk along the tokens, with the texts that it makes. -/
theorem walked {ready : Bool} (h : Applies source w before ts cs old new)
    (walk : Walk ready ts cs) :
    Walked source (Position.start.advance before) ready ts cs old new := by
  refine walk.walked h.made rfl h.stands h.sits h.generated h.ordered ?_ ?_
  · rw [Rest.offset_start]
    exact h.later
  · rw [Rest.offset_start]
    exact h.edits

/-- The edits behind the first token are made behind it. What is put around it comes apart from the
rest, and the rest is such a situation again. -/
theorem behind {next : Bool}
    (h : Applies source w before (t :: ts) (fills ++ (follows ++ cs)) old new)
    (fill : Fills t fills) (follow : Follows t follows) (walk : Walk next ts cs)
    (made : old = gap ++ (t.chars ++ rest)) (sound : t.Sound rest)
    (span : t.span = .between ((Position.start.advance before).advance gap)
      ((Position.start.advance before).advance (gap ++ t.chars)))
    (placed : Placed ((Position.start.advance before).advance (gap ++ t.chars)) ts rest) :
    ∃ front left, new = front ++ (t.chars ++ (Change.put follows ++ left)) ∧
      Filled w t gap fills front ∧ Applies source w (before ++ (gap ++ t.chars)) ts cs rest left ∧
      ¬ (t.IsPlainName ∧ ∃ u ∈ ts, Change.KeptName cs u ∧
        Change.Covered source cs t.span.stop u.span.start) := by
  obtain ⟨made', -, sits, generated, ordered, starts, edits, apart⟩ := h
  rw [made] at made' edits
  rw [← Rest.offset_start before] at edits starts
  have stop : t.span.stop = byteLength (before ++ (gap ++ t.chars)) := by
    rw [← Rest.offset_start, Position.advance_append, span]
    rfl
  have proper := sound.proper span
  have bounds : ∀ u ∈ ts, t.span.stop ≤ u.span.start := fun u mem => by
    rw [span]
    exact (placed.bounds u mem).1
  have spared : ∀ c ∈ cs, c.Spares t := fun c mem => by
    have beyond : t.span.stop ≤ c.first := by
      rw [span]
      exact walk.beyond placed c mem
    exact Change.spares_of_outside (.inl (by omega))
  obtain ⟨front, left, rfl, filled, behind, edits⟩ := walk.around fill follow made' rfl sound span
    placed sits (fun c mem => starts c (by simp [mem])) edits
  rw [fuses_around fill follow spared proper bounds, not_or] at apart
  rw [List.map_append, List.map_append] at ordered
  rw [← Position.advance_append] at placed
  rw [stop] at behind edits
  exact ⟨front, left, rfl, filled, ⟨by simp [made'], placed.stands,
    fun c mem => sits c (by simp [mem]), fun c mem => generated c (by simp [mem]),
    (List.pairwise_append.mp (List.pairwise_append.mp ordered).2.1).2.1, behind, edits,
    apart.1⟩, apart.2⟩

end Applies

/-! ### What the edits give -/

/-- A token behind what is put in front of it, if anything is: it begins a line. -/
def Token.settled (fills : List Change) (t : Token) : Token :=
  match fills with
  | [] => t
  | _ :: _ => { t with newlineBefore := true, touches := false }

/-- Along the tokens `ts` the changes `cs` are made. What the edits for them give has tokens that
satisfy `P`, if the gap in front of the first is the one its flags tell of. -/
structure Delivers (source : List Char) (w : Writer) (ready : Bool) (ts : List Token)
    (cs : List Change) (P : List Token → Prop) : Prop where
  /-- The changes go along with the tokens. -/
  walk : Walk ready ts cs
  /-- Whatever the edits make, it has tokens that satisfy the predicate, but for the flags of the
  first. -/
  out : ∀ {before old new : List Char}, Applies source w before ts cs old new →
    ∃ ls us vs, Cut ls new ∧ List.Forall₂ Lexeme.Becomes ls vs ∧ P us ∧ Reflagged us vs ∧
      (Placed (Position.start.advance before) ts old → vs = us)

namespace Delivers

variable {ready next : Bool} {P Q : List Token → Prop}

theorem mono (h : Delivers source w ready ts cs P) (weaker : ∀ us, P us → Q us) :
    Delivers source w ready ts cs Q where
  walk := h.walk
  out applies := by
    obtain ⟨ls, us, vs, cut, becomes, holds, rest⟩ := h.out applies
    exact ⟨ls, us, vs, cut, becomes, weaker us holds, rest⟩

theorem done : Delivers source w ready [] [] (· = []) where
  walk := .done
  out applies := by
    obtain ⟨-, stands, -, -, -, -, edits, -⟩ := applies
    cases edits
    cases stands with
    | done trailing => exact ⟨[], [], [], .done trailing, .nil, rfl, .nil, fun _ => rfl⟩

/-! #### A token that is kept -/

/-- One token is kept, with what is put in front of it and behind it. What is put in begins a line,
and so does the token behind it. -/
theorem keep {uss vss : List (List Token)} (fill : Fills t fills) (follow : Follows t follows)
    (ends : next = true → AtAttribute ts → t.EndsMember) (later : Delivers source w next ts cs P)
    (some_ : ∀ c ∈ fills, c.texts ≠ [])
    (filled : List.Forall₂ Typeset (fills.flatMap Change.texts) uss)
    (followed : List.Forall₂ Typeset (follows.flatMap Change.texts) vss) :
    Delivers source w ready (t :: ts) (fills ++ (follows ++ cs)) fun us =>
      ∃ us', us = uss.flatten ++ t.settled fills :: (vss.flatten ++ us') ∧ P us' where
  walk := .keep fill follow ends later.walk
  out {before _ _} applies := by
    obtain ⟨gap, crossed, rest, made, whole, sound, span, placed, exact_⟩ := applies.stands.head
    obtain ⟨front, left, rfl, shape, behind, apart⟩ :=
      applies.behind fill follow later.walk made sound span placed
    have moved : (Position.start.advance before).advance (gap ++ t.chars) =
      Position.start.advance (before ++ (gap ++ t.chars)) := by simp
    have walked := behind.walked later.walk
    rw [moved] at placed span
    have joins := walked.joins_keep placed ends
    obtain ⟨ls, us, vs, cut, becomes, holds, -, same⟩ := later.out behind
    obtain rfl := same placed
    obtain ⟨back, cut, becomes'⟩ := Typeset.following followed cut
    have stops := sound.meets_put follow joins fun meet => apart ⟨meet.1, by
      rw [span]
      exact walked.named.mp meet.2⟩
    have becomes : List.Forall₂ Lexeme.Becomes (back ++ ls) (vss.flatten ++ vs) :=
      List.rel_append becomes' becomes
    cases shape with
    | nothing =>
      cases filled
      have cut : Cut (⟨⟨gap, crossed⟩, t.kind, t.chars⟩ :: (back ++ ls)) _ :=
        .lexeme whole sound.spelled stops cut
      exact ⟨_, t :: (vss.flatten ++ vs),
        { t with newlineBefore := crossed, touches := gap.isEmpty } :: (vss.flatten ++ vs), cut,
        .cons ⟨rfl, rfl, rfl, rfl⟩ becomes, ⟨vs, rfl, holds⟩, .cons crossed gap.isEmpty,
        fun placed => by rw [exact_ placed]⟩
    | @fill d members kept space margin bodyIsEmpty closes _ made white margins =>
      rw [made] at whole
      have nonempty : members ≠ [] := some_ _ (.head _)
      rw [List.flatMap_singleton] at filled
      have cut : Cut (⟨.none, t.kind, t.chars⟩ :: (back ++ ls)) _ :=
        @Cut.lexeme .none _ _ _ _ .nil sound.spelled stops cut
      obtain ⟨put, cut, becomes''⟩ :=
        @Typeset.memberText _ _ _ _ _ _ _ _ bodyIsEmpty w.indentWidth _ _ filled nonempty whole
          white margins cut
      rw [List.append_assoc]
      have becomes : List.Forall₂ Lexeme.Becomes (put ++
          ⟨⟨'\n' :: margin, true⟩, t.kind, t.chars⟩ :: (back ++ ls))
          (uss.flatten ++ t.settled [.fill d members] :: (vss.flatten ++ vs)) :=
        List.rel_append becomes'' (.cons ⟨rfl, rfl, rfl, rfl⟩ becomes)
      exact ⟨_, _, _, cut, becomes, ⟨vs, rfl, holds⟩, .refl _, fun _ => rfl⟩

/-! #### An attribute that is taken out -/

/-- An attribute is taken out, and with it the gap behind it. So the token that comes next takes
over the flags of the sign, which is why a line break in front of the sign is not lost. -/
theorem drop {a : Attribute} {sign last : Token} {inner : List Token} (kind : sign.kind = .atSign)
    (first : a.first = sign.span) (ends : a.last = last.span) (goesOn : GoesOn ts)
    (later : Delivers source w true ts cs P) :
    Delivers source w true (sign :: (inner ++ last :: ts)) (.drop a :: cs) fun us =>
      ∃ us', Reflagged us' us ∧ P us' ∧
        (sign.newlineBefore = true → ∀ u ∈ us.head?, u.newlineBefore = true) where
  walk := .drop kind first ends goesOn later.walk
  out {before old _} applies := by
    obtain ⟨made, stands, sits, generated, ordered, starts, edits, apart⟩ := applies
    obtain ⟨gap, cut, back, out⟩ :=
      Walked.takenOut made rfl stands kind first ends goesOn (sits _ (.head _))
    obtain ⟨left, rfl, more⟩ := out.edited first edits
    obtain ⟨crossed, whole, exact_⟩ := out.flags
    rw [out.made] at made
    rw [out.stop] at more
    obtain ⟨after, ordered⟩ := List.pairwise_cons.mp ordered
    have behind : ∀ c ∈ cs, byteLength (before ++ (gap ++ cut)) ≤
        (c.edit source w.indentWidth).start := fun c mem =>
      out.stop ▸ (after _ (List.mem_map_of_mem mem)).1
    obtain ⟨ls, us, vs, cut', becomes, holds, reflagged, -⟩ := later.out
      (show Applies source w (before ++ (gap ++ cut)) ts cs back left from
        ⟨by simp [made], out.stands, fun c mem => sits c (.tail _ mem),
          fun c mem => generated c (.tail _ mem), ordered, behind, more,
          fun fuses => apart ((out.fuses_iff stands first ends).mpr fuses)⟩)
    obtain ⟨ls', vs', cut', becomes', shape⟩ := cut'.reflagged becomes whole
    refine ⟨ls', ?_⟩
    rcases shape with ⟨rfl, rfl⟩ | ⟨v, vs₁, rfl, rfl⟩
    · cases reflagged
      exact ⟨[], [], cut', becomes', ⟨[], .nil, holds, nofun⟩, .nil, fun _ => rfl⟩
    · obtain ⟨u, n, b, rfl, same⟩ : ∃ u n b, us = u :: vs₁ ∧
          v = { u with newlineBefore := n, touches := b } := by
        cases reflagged with
        | cons n b => exact ⟨_, n, b, rfl, rfl⟩
      subst same
      refine ⟨{ u with newlineBefore := sign.newlineBefore || n, touches := sign.touches && b } ::
        vs₁, _, cut', becomes', ⟨u :: vs₁, .cons _ _, holds, ?_⟩, .cons _ _, fun placed => ?_⟩
      · rintro line _ ⟨⟩
        simp [line]
      · obtain ⟨rfl, touches⟩ := exact_ placed
        rw [touches]

/-! #### Tokens that are kept -/

theorem plain (h : Delivers source w next ts cs P)
    (ends : next = true → AtAttribute ts → t.EndsMember) :
    Delivers source w ready (t :: ts) cs fun us => ∃ us', us = t :: us' ∧ P us' :=
  @keep _ _ _ _ [] [] _ _ _ _ [] [] .nothing .nothing ends h nofun .nil .nil

/-- All tokens that are consumed are kept. They are the same as before up to what follows them,
which may be changed. -/
theorem consume (h : Delivers source w true ts cs P) {us : List Token}
    (consumes : Consumes AtAttribute us ts) :
    Delivers source w ready us cs fun vs => ∃ ts', vs = graft ts ts' us ∧ P ts' := by
  obtain ⟨front, last, rfl, ends⟩ := consumes
  induction front generalizing ready with
  | nil =>
    refine (h.plain fun _ => ends).mono ?_
    rintro _ ⟨ts', rfl, holds⟩
    exact ⟨ts', (graft_append [last]).symm, holds⟩
  | cons t front ih =>
    refine ((@ih false).plain fun never => by cases never).mono ?_
    rintro _ ⟨_, rfl, ts', rfl, holds⟩
    exact ⟨ts', (graft_cons ((List.suffix_cons _ _).trans (List.suffix_append _ _))).symm, holds⟩

end Delivers

/-! ### A whole file -/

/-- What an expansion gives has the tokens that the changes deliver. -/
theorem FileSpelled.rewritten {source : String} {ts : List Token} {ms : List Member}
    (spelled : FileSpelled ts ms) (tokens : tokenize source = .ok ts)
    (delivers : Delivers source.toList w true ts
      ((ms.filterMap Member.type?).flatMap (·.allChanges w)) P)
    (apart : ¬ Change.Fuses source.toList
      ((ms.filterMap Member.type?).flatMap (·.allChanges w)) ts) :
    ∃ ls us, Cut ls (Edit.applyAll ((ms.filterMap Member.type?).flatMap
        (·.allEdits source.toList w)) source.toList) ∧
      List.Forall₂ Lexeme.Becomes ls us ∧ P us := by
  have placed := placed_of_tokenize tokens
  obtain ⟨sits, ordered, made⟩ := spelled.edited tokens w
  obtain ⟨ls, us, vs, cut, becomes, holds, -, same⟩ := delivers.out
    (show Applies source.toList w [] ts _ _ _ from ⟨rfl, placed.stands, sits,
      spelled.generated placed.spelled w, ordered, fun _ _ => Nat.zero_le _, made, apart⟩)
  obtain rfl := same placed
  exact ⟨ls, vs, cut, becomes, holds⟩

end CodableSynthesis
