import LC3.Proofs.Source.Lossless

/-!
Cutting a text between two characters. A number of bytes is a place to cut a text at only where a
character starts or the text ends. The next token from wherever reading has come starts and stops
at such places, and its bytes are those by which the text that is left gets shorter. Main
statements: `Span.slice?_eq_some_iff`, `Cursor.counts_of_reaches`.
-/

namespace LC3

/-- The text before byte `n` and from there on, if `n` is not inside a character or past the end. -/
def cutBytes? : Nat → List Char → Option (List Char × List Char)
  | 0, text => some ([], text)
  | _ + 1, [] => none
  | n + 1, c :: text =>
    if c.utf8Size ≤ n + 1 then
      (cutBytes? (n + 1 - c.utf8Size) text).map fun (before, after) => (c :: before, after)
    else none

/-- The part of a text that the span covers, if the text can be cut at both of its ends. -/
def Span.slice? (s : Span) (text : List Char) : Option (List Char) := do
  let (_, rest) ← cutBytes? s.start text
  let (part, _) ← cutBytes? s.length rest
  return part

/-- The numbers without a sign that have 32 bits, in which places in a source are counted. -/
def Interval.counts : Interval := ⟨0, 0xFFFFFFFF⟩

variable {n : Nat} {text before after part source : List Char}

theorem cutBytes?_append (before after : List Char) :
    cutBytes? (byteLength before) (before ++ after) = some (before, after) := by
  induction before with
  | nil => exact cutBytes?.eq_1 after
  | cons c before ih =>
      obtain ⟨n, size, rest⟩ := exists_byteLength_cons c before
      have fits : c.utf8Size ≤ n + 1 := by
        rw [← size, byteLength_cons]
        exact Nat.le_add_right ..
      rw [size, List.cons_append, cutBytes?, if_pos fits, rest, ih]
      rfl

theorem cutBytes?_eq_some_iff :
    cutBytes? n text = some (before, after) ↔ text = before ++ after ∧ n = byteLength before := by
  constructor
  · intro cut
    fun_induction cutBytes? n text generalizing before with
    | case1 text =>
        cases cut
        exact ⟨rfl, rfl⟩
    | case2 => cases cut
    | case3 n c text fits ih =>
        obtain ⟨⟨more, after⟩, rest, same⟩ := Option.map_eq_some_iff.mp cut
        cases same
        obtain ⟨rfl, size⟩ := ih rest
        exact ⟨rfl, by rw [byteLength_cons]; omega⟩
    | case4 => cases cut
  · rintro ⟨rfl, rfl⟩
    exact cutBytes?_append before after

theorem Span.slice?_eq_some_iff {s : Span} :
    s.slice? text = some part ↔ ∃ before after, text = before ++ part ++ after ∧
      s.start = byteLength before ∧ s.length = byteLength part := by
  simp only [slice?, Option.bind_eq_bind, Option.bind_eq_some_iff, Prod.exists,
    cutBytes?_eq_some_iff, Option.pure_def, Option.some.injEq]
  constructor
  · rintro ⟨before, _, ⟨rfl, start⟩, _, after, ⟨rfl, length⟩, rfl⟩
    exact ⟨before, after, (List.append_assoc ..).symm, start, length⟩
  · rintro ⟨before, after, rfl, start, length⟩
    exact ⟨before, part ++ after, ⟨List.append_assoc .., start⟩, part, after, ⟨rfl, length⟩, rfl⟩

/-- The text behind a first character of one byte. -/
theorem Span.slice?_tail {c : Char} (one : c.utf8Size = 1) (text : List Char) :
    (⟨1, byteLength text⟩ : Span).slice? (c :: text) = some text :=
  slice?_eq_some_iff.mpr ⟨[c], [], by simp, by simp [one], rfl⟩

namespace Cursor

/-- Reading token after token from one place comes to the other. -/
def Reaches : Cursor → Cursor → Prop := Relation.ReflTransGen fun c d => c.nextToken.2 = d

/-- The cursor is in the source, and between two tokens. -/
structure Between (source : List Char) (c : Cursor) : Prop where
  fresh : c.taken = []
  place : ∃ before, source = before ++ c.rest ∧ c.start = byteLength before

/-- What reading the next token counts. -/
structure Counts (source : List Char) (c : Cursor) : Prop where
  /-- The bytes that are left do not grow, and the token has those that are gone. -/
  length : byteLength c.nextToken.2.rest + c.nextToken.1.span.length = byteLength c.rest
  next : c.nextToken.2.start = c.nextToken.1.span.stop
  stop : (c.nextToken.1.span.stop : Int) ∈ Interval.counts
  slice : c.nextToken.1.span.slice? source = some c.nextToken.1.text

variable {c d : Cursor}

theorem between_ofText (source : List Char) : (ofText source).Between source where
  fresh := rfl
  place := ⟨[], rfl, rfl⟩

/-- A token takes its text from what is left, and the next one starts behind it. -/
theorem Between.split_nextToken (h : c.Between source) : ∃ before,
    source = before ++ c.nextToken.1.text ++ c.nextToken.2.rest ∧
      c.rest = c.nextToken.1.text ++ c.nextToken.2.rest ∧ c.nextToken.2.taken = [] ∧
        c.nextToken.1.start = byteLength before ∧
          c.nextToken.2.start = byteLength (before ++ c.nextToken.1.text) := by
  obtain ⟨before, whole, start⟩ := h.place
  refine ⟨before, ?_⟩
  unfold nextToken
  split
  · next empty => simp [whole, empty, h.fresh, start]
  · next d rest more => simp [whole, more, h.fresh, start]

theorem Between.nextToken (h : c.Between source) : c.nextToken.2.Between source := by
  obtain ⟨before, whole, -, fresh, -, stop⟩ := h.split_nextToken
  exact ⟨fresh, before ++ c.nextToken.1.text, whole, stop⟩

theorem Between.of_reaches (h : c.Between source) (reached : c.Reaches d) : d.Between source := by
  induction reached with
  | refl => exact h
  | tail _ step ih => exact step ▸ ih.nextToken

/-- Wherever reading comes, the next token can be counted and cut out. -/
theorem counts_of_reaches (fits : (byteLength source : Int) ∈ Interval.counts)
    (reached : (ofText source).Reaches c) : c.Counts source := by
  obtain ⟨before, whole, rest, -, start, next⟩ :=
    ((between_ofText source).of_reaches reached).split_nextToken
  have place : c.nextToken.1.span.start = byteLength before := start
  have stop : c.nextToken.1.span.stop = byteLength (before ++ c.nextToken.1.text) := by
    rw [byteLength_append, ← place]
    rfl
  refine ⟨?_, next.trans stop.symm, ?_, ?_⟩
  · rw [rest, byteLength_append, Nat.add_comm]
    rfl
  · have bound : c.nextToken.1.span.stop ≤ byteLength source := by
      rw [stop, whole, byteLength_append (before ++ _)]
      exact Nat.le_add_right ..
    exact ⟨Int.natCast_nonneg _, Int.le_trans (Int.ofNat_le.mpr bound) fits.2⟩
  · exact Span.slice?_eq_some_iff.mpr ⟨before, _, whole, place, rfl⟩

theorem exists_reaches_of_yields {tokens : List Token} (h : c.Yields tokens) :
    ∀ t ∈ tokens, ∃ d, c.Reaches d ∧ d.nextToken.1 = t := by
  induction h with
  | ended => exact fun t member => absurd member List.not_mem_nil
  | token _ _ ih =>
      refine List.forall_mem_cons.mpr ⟨⟨_, .refl, rfl⟩, fun t member => ?_⟩
      obtain ⟨d, reached, own⟩ := ih t member
      exact ⟨d, .head rfl reached, own⟩

end Cursor

/-- Every token of a source is the next one at a place that reading comes to. -/
theorem exists_reaches_of_mem_tokenize {t : Token} (h : t ∈ tokenize source) :
    ∃ c, (Cursor.ofText source).Reaches c ∧ c.nextToken.1 = t :=
  Cursor.exists_reaches_of_yields (Cursor.yields_tokens (.ofText source)) t h

theorem slice?_of_mem_tokenize {t : Token} (h : t ∈ tokenize source) :
    t.span.slice? source = some t.text := by
  obtain ⟨before, after, whole, start, -, -⟩ := exists_slice_of_mem_tokenize h
  exact Span.slice?_eq_some_iff.mpr ⟨before, after, whole, start, rfl⟩

end LC3
