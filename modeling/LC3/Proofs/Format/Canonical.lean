import LC3.Proofs.Format.Typing

/-!
Words whose constant bits are wrong. A word that is decoded without regard to its constant bits has
the parts of one word that keeps them, the word that its parts are encoded to, and the two differ
in constant bits alone. Main statements: `exists_canonical`, `exists_decode_lenient_iff`.
-/

namespace LC3

/-- The segments leave no bit out. -/
theorem Segment.exists_place_of_lt {segments : List Segment} {h : total segments ≤ 16} {i : Nat}
    (inside : i < total segments) :
    ∃ q ∈ place segments h, q.range.low ≤ i ∧ i ≤ q.range.high := by
  induction segments with
  | nil => exact absurd inside (Nat.not_lt_zero i)
  | cons s rest ih =>
      have pos := s.width.pos
      simp only [total] at inside
      by_cases below : i < total rest
      · obtain ⟨q, member, within⟩ := ih below (h := by simp only [total] at h; omega)
        exact ⟨q, List.mem_cons_of_mem _ member, within⟩
      · refine ⟨_, List.mem_cons_self, ?_, ?_⟩
        · exact Nat.le_of_not_lt below
        · dsimp only
          omega

namespace Layout

variable {l : Layout} {word canonical : Word} {i : Nat}

/-- A word in the layout that has the same fields agrees in every bit that is not constant. -/
theorem getLsbD_of_holds_read (distinct : l.Distinct)
    (held : ∀ q ∈ l.placed, q.Holds (l.read word) canonical) (low : i < 12)
    (free : l.fixedBit? i = none) : canonical.getLsbD i = word.getLsbD i := by
  obtain ⟨q, placed, inside⟩ : ∃ q ∈ l.placed, q.range.low ≤ i ∧ i ≤ q.range.high :=
    Segment.exists_place_of_lt (by rw [l.covers]; exact low)
  have width := Segment.width_of_mem_place placed
  cases segment : q.segment with
  | constant w pattern =>
      have none := List.findSome?_eq_none_iff.mp free q placed
      simp [segment, Segment.constant?, inside] at none
  | field f =>
      rw [segment, Segment.width] at width
      have own : (l.read word).get f.name = some (q.value word f) :=
        Placement.get_foldl_read_of_mem distinct.apart placed segment
      have same : q.value canonical f = q.value word f :=
        Option.some.inj (((held q placed).get segment).symm.trans own)
      have pattern (w : Word) : f.width.encode f.signedness (q.value w f) =
          .ok (q.range.extract .unsigned w) := by
        apply Width.encode_decode_of_narrow
        intro j above
        rw [BitRange.getLsbD_extract, decide_eq_false (by omega), Bool.false_and]
      have equal := pattern canonical
      rw [same, pattern word, Except.ok.injEq] at equal
      rw [← BitRange.getLsbD_extract_sub canonical inside.1 inside.2, ← equal,
        BitRange.getLsbD_extract_sub word inside.1 inside.2]

end Layout

/-- The word with the constant bits of its layout as they must be: it keeps all others. -/
structure Layout.Canonical (l : Layout) (word canonical : Word) : Prop where
  fixed : ∀ i b, l.fixedBit? i = some b → canonical.getLsbD i = b
  free : ∀ i, l.fixedBit? i = none → canonical.getLsbD i = word.getLsbD i

namespace Parts

variable {word canonical : Word} {p : Parts} {l : Layout} {d : Decoding}

theorem decode_lenient_eq_ok_iff :
    decode .lenient word = .ok p ↔ ∃ format, (Opcode.of word).format? = some format ∧
      p = ⟨Opcode.of word, format.modeOf word, (format.layoutOf word).read word⟩ := by
  simp only [decode]
  cases (Opcode.of word).format? with
  | none => simp
  | some format => simp [eq_comm]

/-- A word without wrong constant bits has the same parts under either decoding. -/
theorem decode_of_strict (h : decode .strict word = .ok p) (d : Decoding) :
    decode d word = .ok p := by
  cases d with
  | strict => exact h
  | lenient =>
      obtain ⟨format, known, -, rfl⟩ := decode_strict_eq_ok_iff.mp h
      exact decode_lenient_eq_ok_iff.mpr ⟨format, known, rfl⟩

theorem Of.restrict_eq (h : p.Of l) : l.restrict p.fields = p.fields := by
  ext1
  funext f
  simp only [Layout.restrict]
  split
  · rfl
  · next other => exact (h.only f other).symm

/-- The parts of a word, whether its constant bits are right or not, are those of one word in the
same layout. -/
theorem exists_canonical (h : decode d word = .ok p) :
    ∃ l canonical, p.opcode.layout? p.mode = some l ∧ p.encode = .ok canonical ∧
      decode .strict canonical = .ok p ∧ l.Canonical word canonical := by
  obtain ⟨l, of⟩ := exists_of_decode h
  obtain ⟨canonical, written⟩ := exists_encode_iff.mpr ⟨l, of.layout, of.fits⟩
  obtain ⟨l', layout, held, opcode⟩ := encode_eq_ok_iff.mp written
  obtain rfl := Option.some.inj (layout.symm.trans of.layout)
  obtain ⟨l'', layout', strict⟩ := decode_of_encode written
  obtain rfl := Option.some.inj (layout'.symm.trans of.layout)
  rw [of.restrict_eq] at strict
  refine ⟨l'', canonical, layout, written, strict, ?_, ?_⟩
  · intro i b fixed
    exact (Layout.matches_of_holds held).getLsbD fixed
  · intro i free
    obtain ⟨format, known, rfl⟩ := eq_of_decode h
    have chosen := Opcode.layout?_eq_some_iff.mpr ⟨format, known, format.layouts_modeOf word⟩
    obtain rfl := Option.some.inj (chosen.symm.trans of.layout)
    by_cases low : i < 12
    · exact Layout.getLsbD_of_holds_read of.distinct held low free
    · have top : word.getLsbD i = (Opcode.of word).base.getLsbD i :=
        Opcode.of_eq_iff.mp rfl i (Nat.le_of_not_lt low)
      rw [top]
      exact Opcode.of_eq_iff.mp opcode i (Nat.le_of_not_lt low)

end Parts

namespace Opcode

theorem of_eq_reserved_iff {word : Word} : of word = .reserved ↔ word.extractLsb' 12 4 = 0b1101 := by
  have table : ∀ tag : BitVec 4, ofTag tag = .reserved ↔ tag = 0b1101 := by decide
  exact table _

theorem format?_eq_none_iff {o : Opcode} : o.format? = none ↔ o = .reserved := by
  cases o <;> decide

end Opcode

namespace Instruction

variable {word canonical : Word} {i : Instruction} {d : Decoding}

theorem decode_eq_ok_iff :
    decode d word = .ok i ↔ ∃ p, Parts.decode d word = .ok p ∧ ofParts p = .ok i := by
  unfold decode
  cases Parts.decode d word <;> simp

/-- A word without wrong constant bits is the same instruction under either decoding. -/
theorem decode_of_strict (h : decode .strict word = .ok i) (d : Decoding) :
    decode d word = .ok i := by
  obtain ⟨p, parts, made⟩ := decode_eq_ok_iff.mp h
  exact decode_eq_ok_iff.mpr ⟨p, Parts.decode_of_strict parts d, made⟩

/-- Only the reserved opcode is refused where constant bits are not checked. -/
theorem exists_decode_lenient_iff :
    (∃ i, decode .lenient word = .ok i) ↔ word.extractLsb' 12 4 ≠ 0b1101 := by
  rw [Ne, ← Opcode.of_eq_reserved_iff, ← Opcode.format?_eq_none_iff]
  constructor
  · rintro ⟨i, decoded⟩ none
    obtain ⟨p, parts, -⟩ := decode_eq_ok_iff.mp decoded
    obtain ⟨format, known, -⟩ := Parts.decode_lenient_eq_ok_iff.mp parts
    rw [none] at known
    cases known
  · intro some
    obtain ⟨format, known⟩ := Option.ne_none_iff_exists'.mp some
    have parts := Parts.decode_lenient_eq_ok_iff.mpr ⟨format, known, rfl⟩
    obtain ⟨l, of⟩ := Parts.exists_of_decode parts
    obtain ⟨i, made⟩ := exists_ofParts of
    exact ⟨i, decode_eq_ok_iff.mpr ⟨_, parts, made⟩⟩

/-- The word that an instruction of a word is encoded to is decoded to the same instruction. -/
theorem decode_canonical (h : decode d word = .ok i) (written : i.encode = .ok canonical) :
    decode .strict canonical = .ok i := by
  obtain ⟨l, canonical', -, written', strict, -⟩ := Parts.exists_canonical (parts_of_decode h)
  obtain rfl := Except.ok.inj (written.symm.trans written')
  obtain ⟨p, parts, made⟩ := decode_eq_ok_iff.mp h
  obtain rfl := Except.ok.inj (parts.symm.trans (parts_of_decode h))
  exact decode_eq_ok_iff.mpr ⟨_, strict, made⟩

end Instruction
end LC3
