import CodableSynthesis.Proofs.Joining.Amid
import CodableSynthesis.Proofs.Rewriting.Preserved

/-!
Expansion is local. If a source text ends with the brace of its last type declaration, another text
behind it, on a line of its own, is expanded as it is by itself, and so is the first one.

* `Edit.Made.append`, `Edit.Made.shift`: edits of one text behind another.
* `Declaration.made_joined`: the edits of both texts, made in both.
* `expandSource_joined`: the law, with the warnings and errors of the second text on later lines.

Two conditions are asked of the first text, and none of the second, which may also be one that
cannot be read. The first text ends with the brace that closes its last type declaration, since what
is skipped at its end could otherwise go on in the second. And every sign of an attribute in it has
a name behind it: a sign at the end of a block would be taken together with the brace behind it
where a block of accessors is told from a getter.
-/

namespace CodableSynthesis

open Text (byteLength byteLength_append)

/-! ### Edits in two texts -/

namespace Edit.Made

variable {offset bytes : Nat} {edits later : List Edit} {text out more out' : List Char}

/-- Making edits gives one text. -/
theorem applyFrom_eq (h : Made offset edits text out) : applyFrom offset text edits = out := by
  induction h with
  | done => rfl
  | @edit offset e edits kept cut rest out start stop _ ih =>
    have keptLength : e.start - offset = byteLength kept := by omega
    have cutLength : e.stop - offset = byteLength (kept ++ cut) := by
      rw [byteLength_append]
      omega
    rw [applyFrom, keptLength, cutLength, Text.takeBytes_byteLength_append, ← List.append_assoc kept,
      Text.dropBytes_byteLength_append, ih, List.append_assoc]

/-- Edits of a text that begins further behind. -/
theorem shift (h : Made offset edits text out) :
    Made (offset + bytes) (edits.map (Edit.shift bytes)) text out := by
  induction h with
  | done => exact .done
  | @edit offset e edits kept cut rest out start stop _ ih =>
    refine @Made.edit _ (e.shift bytes) _ _ _ _ _ ?_ ?_ ih
    · rw [Edit.shift, start, Nat.add_right_comm]
    · rw [Edit.shift, stop, Nat.add_right_comm]

theorem behind (h : Made (offset + byteLength text) later more out') :
    Made offset later (text ++ more) (text ++ out') := by
  cases h with
  | done => exact .done
  | @edit _ e later kept cut rest out start stop last =>
    rw [← List.append_assoc, ← List.append_assoc text]
    refine .edit ?_ stop last
    rw [start, byteLength_append, Nat.add_assoc]

/-- Edits in two texts, one behind the other. -/
theorem append (h : Made offset edits text out)
    (h' : Made (offset + byteLength text) later more out') :
    Made offset (edits ++ later) (text ++ more) (out ++ out') := by
  induction h with
  | done => exact h'.behind
  | @edit offset e edits kept cut rest out start stop _ ih =>
    rw [byteLength_append, byteLength_append, ← Nat.add_assoc, ← Nat.add_assoc, ← start, ← stop] at h'
    simpa using Made.edit start stop (ih h')

end Edit.Made

/-! ### Declarations in two texts -/

namespace Declaration

variable {w : Writer}

theorem shift_zero (d : Declaration) : d.shift 0 0 = d :=
  d.mapSpans_id

theorem map_shift_zero (edits : List Edit) : edits.map (Edit.shift 0) = edits :=
  List.map_id'' (fun _ => rfl) _

/-- The edits for declarations of a text that another one follows. -/
theorem allEdits_before {ds : List Declaration} {text : List Char}
    (settled : ∀ d ∈ ds, ∀ n ∈ d.withNested, n.Settled text) (back : List Char) :
    ds.flatMap (·.allEdits (text ++ back) w) = ds.flatMap (·.allEdits text w) := by
  refine List.flatMap_congr fun d mem => ?_
  have amid := @allEdits_amid [] text back 0 w d (.inl rfl) (settled d mem)
  rwa [Text.byteLength_nil, map_shift_zero, shift_zero] at amid

/-- The edits for declarations of a text that stands behind another one. -/
theorem allEdits_behind {ds : List Declaration} {front text : List Char} {lineFeeds : Nat}
    (ends : Text.EndsLine front) (settled : ∀ d ∈ ds, ∀ n ∈ d.withNested, n.Settled text) :
    (ds.map (shift (byteLength front) lineFeeds)).flatMap (·.allEdits (front ++ text) w) =
      (ds.flatMap (·.allEdits text w)).map (Edit.shift (byteLength front)) := by
  rw [List.flatMap_map, List.map_flatMap]
  refine List.flatMap_congr fun d mem => ?_
  have amid := @allEdits_amid front text [] lineFeeds w d ends (settled d mem)
  rwa [List.append_nil] at amid

/-- The edits of two texts, one on a line behind the other. -/
theorem made_joined {ds us : List Declaration} {a b out out' : List Char} {lineFeeds : Nat}
    (settled : ∀ d ∈ ds, ∀ n ∈ d.withNested, n.Settled a)
    (settled' : ∀ d ∈ us, ∀ n ∈ d.withNested, n.Settled b)
    (made : Edit.Made 0 (ds.flatMap (·.allEdits a w)) a out)
    (made' : Edit.Made 0 (us.flatMap (·.allEdits b w)) b out') :
    Edit.Made 0 ((ds ++ us.map (shift (byteLength (a ++ ['\n'])) lineFeeds)).flatMap
        (·.allEdits (a ++ ['\n'] ++ b) w))
      (a ++ ['\n'] ++ b) (out ++ ['\n'] ++ out') := by
  have before := @allEdits_before w _ _ settled (['\n'] ++ b)
  have behind := @allEdits_behind w _ (a ++ ['\n']) _ lineFeeds (.inr List.getLast?_concat) settled'
  rw [List.flatMap_append, behind, List.append_assoc, List.append_assoc, before]
  refine made.append (Edit.Made.behind ?_)
  rw [Nat.add_assoc, ← byteLength_append]
  exact made'.shift

end Declaration

/-- What an expansion of a source text that can be read gives. It never fails then. -/
theorem expandSource_of_readSource {source : String} {ds : List Declaration}
    (parsed : readSource source = .ok ds) (indentWidth : Nat) :
    expandSource source indentWidth = .ok {
      source := String.ofList (Edit.applyAll
        (ds.flatMap (·.allEdits source.toList (.new indentWidth))) source.toList)
      expanded := (ds.flatMap (·.expansions (.new indentWidth))).countP fun e => !e.members.isEmpty
      diagnostics := (ds.flatMap (·.expansions (.new indentWidth))).flatMap (·.diagnostics) } := by
  rw [expandSource, parsed]
  rfl

/-- What an expansion gives for one text and behind it, on a line of its own, another one: both
outputs, the count of both, and the warnings of both, those of the second one lower. -/
structure ExpandedSource.Joined (lineFeeds : Nat) (first second both : ExpandedSource) : Prop where
  source : both.source = first.source ++ "\n" ++ second.source
  expanded : both.expanded = first.expanded + second.expanded
  diagnostics : both.diagnostics =
    first.diagnostics ++ second.diagnostics.map (Diagnostic.shift lineFeeds)

/-- If a source text that can be read ends with its last type declaration, and a name stands behind
every sign of an attribute in it, then another text behind it is expanded as it is by itself: if
that is rejected, both texts together are, for the same reason, as many lines lower as the first
text takes. -/
theorem expandSource_joined {a : String} {ts : List Token} {ds : List Declaration}
    (cut : tokenize a = .ok ts) (parsed : readSource a = .ok ds) (ends : EndsWithLast ts ds)
    (signed : Signed ts) (indentWidth : Nat) (b : String) :
    ∃ out, expandSource a indentWidth = .ok out ∧
      SameOutcome (fun e e' : SourceError => e' = e.shift (a.toList.count '\n' + 1))
        (out.Joined (a.toList.count '\n' + 1))
        (expandSource b indentWidth) (expandSource (a ++ "\n" ++ b) indentWidth) := by
  refine ⟨_, expandSource_of_readSource parsed indentWidth, ?_⟩
  have joined := readSource_joined cut parsed signed ends b
  cases parsedB : readSource b with
  | error fault =>
    rw [parsedB] at joined
    generalize both : readSource (a ++ "\n" ++ b) = r at joined
    cases joined with
    | error same =>
      rw [expandSource, expandSource, parsedB, both]
      exact .error same
  | ok us =>
    rw [parsedB] at joined
    generalize both : readSource (a ++ "\n" ++ b) = r at joined
    cases joined with
    | ok same =>
      subst same
      rw [expandSource_of_readSource parsedB, expandSource_of_readSource both]
      obtain ⟨count, warnings⟩ := @Declaration.expansions_shift (byteLength (a.toList ++ ['\n']))
        (a.toList.count '\n' + 1) (.new indentWidth) us
      refine .ok ⟨?_, ?_, ?_⟩
      · obtain ⟨_, ms, tokens, spelled, rfl⟩ := spelled_of_readSource parsed
        obtain ⟨_, ns, tokensB, spelledB, rfl⟩ := spelled_of_readSource parsedB
        have made := @Declaration.made_joined _ _ _ _ _ _ _ (a.toList.count '\n' + 1)
          (spelled.settled (placed_of_tokenize tokens))
          (spelledB.settled (placed_of_tokenize tokensB)) (spelled.made tokens (.new indentWidth))
          (spelledB.made tokensB (.new indentWidth))
        have text : (a ++ "\n" ++ b).toList = a.toList ++ ['\n'] ++ b.toList := by simp
        dsimp only
        rw [text, Edit.applyAll, made.applyFrom_eq, String.ofList_append, String.ofList_append]
      · dsimp only
        rw [List.flatMap_append, List.countP_append, count]
      · dsimp only
        rw [List.flatMap_append, List.flatMap_append, warnings]

theorem expandSource_joined_struct :
    ∃ ts ds, tokenize "@Codable class A \x7b let x: Int \x7d" = .ok ts ∧
      readSource "@Codable class A \x7b let x: Int \x7d" = .ok ds ∧ EndsWithLast ts ds ∧ Signed ts ∧
      ∃ out, expandSource "@Codable class A \x7b let x: Int \x7d" 2 = .ok out ∧
        SameOutcome (fun e e' : SourceError => e' = e.shift 1) (out.Joined 1)
          (expandSource "@Codable struct B \x7b\x7d" 2)
          (expandSource ("@Codable class A \x7b let x: Int \x7d" ++ "\n" ++
            "@Codable struct B \x7b\x7d") 2) := by
  have computed : ((tokenize "@Codable class A \x7b let x: Int \x7d").toOption.any fun ts =>
      (readSource "@Codable class A \x7b let x: Int \x7d").toOption.any fun ds =>
        decide (EndsWithLast ts ds) && decide (Signed ts)) = true := by
    decide +kernel
  obtain ⟨ts, cut, computed⟩ := ok_of_any computed
  obtain ⟨ds, parsed, computed⟩ := ok_of_any computed
  obtain ⟨ends, signed⟩ := Bool.and_eq_true_iff.mp computed
  have ends := of_decide_eq_true ends
  have signed := of_decide_eq_true signed
  exact ⟨ts, ds, cut, parsed, ends, signed, expandSource_joined cut parsed ends signed 2 _⟩

end CodableSynthesis
