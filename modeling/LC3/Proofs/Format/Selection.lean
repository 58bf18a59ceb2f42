import LC3.Proofs.Format.Placement

/-!
What a word in a layout looks like. Its constants are in place, its fields are read back, and its
selector bit and its top four bits say the layout and the opcode. Main statements:
`read_eq_restrict`, `holds_read`, `select_of_matches`, `of_eq_iff`.
-/

namespace LC3

/-- The bits of a segment that are the same in every word. -/
def Segment.constant? : Segment → Option Word
  | .constant _ pattern => some (pattern.setWidth 16)
  | .field _ => none

namespace Layout

variable {l : Layout} {word : Word}

theorem mem_fields_iff {f : Field} : f ∈ l.fields ↔ ∃ p ∈ l.placed, p.segment = .field f := by
  have segments : l.segments = l.placed.map Placement.segment :=
    (Segment.map_segment_place l.segments _).symm
  simp only [fields, segments, List.mem_filterMap, List.mem_map, exists_exists_and_eq_and]
  refine exists_congr fun p => and_congr_right fun _ => ?_
  cases p.segment <;> simp

/-- The constants of the layout are all in place. -/
def Matches (l : Layout) (word : Word) : Prop :=
  ∀ p ∈ l.placed, ∀ bits, p.segment.constant? = some bits → p.range.extract .unsigned word = bits

theorem mismatch?_eq_none_iff : l.mismatch? word = none ↔ l.Matches word := by
  simp only [mismatch?, List.findSome?_eq_none_iff, Option.map_eq_none_iff, Matches]
  refine forall₂_congr fun p _ => ?_
  unfold Placement.mismatch? Segment.constant?
  cases p.segment <;> simp

def Distinct (l : Layout) : Prop := (l.fields.map Field.name).Nodup

instance (l : Layout) : Decidable l.Distinct :=
  inferInstanceAs (Decidable (l.fields.map Field.name).Nodup)

/-- The values of the fields that the layout has, without any others. -/
def restrict (l : Layout) (s : FieldSet) : FieldSet :=
  ⟨fun f => if f ∈ l.fields.map Field.name then s.get f else none⟩

end Layout

namespace Placement

variable {fields : FieldSet} {word : Word} {p : Placement} {f : Field}

def value (word : Word) (p : Placement) (f : Field) : Int :=
  f.width.decode f.signedness (p.range.extract .unsigned word)

theorem Holds.get (h : p.Holds fields word) (hf : p.segment = .field f) :
    fields.get f.name = some (p.value word f) := by
  simp only [Holds, hf, Segment.pattern] at h
  cases given : fields.get f.name with
  | none => simp [given] at h
  | some v =>
      cases written : f.width.encode f.signedness v with
      | error e => simp [given, written] at h
      | ok bits =>
          simp only [given, written, Except.ok.injEq] at h
          rw [value, ← h, Width.decode_of_encode written]

/-- Neither placement gives a value to a field of the other. -/
def Apart (p q : Placement) : Prop :=
  ∀ f g, p.segment = .field f → q.segment = .field g → f.name ≠ g.name

theorem get_read (given : FieldSet) (hf : p.segment = .field f) (name : FieldName) :
    (p.read word given).get name =
      if name = f.name then some (p.value word f) else given.get name := by
  simp only [read, hf, FieldSet.get_set, value]

theorem get_foldl_read_of_absent {ps : List Placement} {given : FieldSet} {name : FieldName}
    (absent : ∀ p ∈ ps, ∀ f, p.segment = .field f → f.name ≠ name) :
    (ps.foldl (fun s p => p.read word s) given).get name = given.get name := by
  induction ps generalizing given with
  | nil => rfl
  | cons p rest ih =>
      rw [List.foldl_cons, ih fun q later => absent q (List.mem_cons_of_mem p later)]
      cases segment : p.segment with
      | constant w pattern => simp only [read, segment]
      | field f =>
          rw [get_read given segment, if_neg (absent p List.mem_cons_self f segment).symm]

theorem get_foldl_read_of_mem {ps : List Placement} {given : FieldSet}
    (apart : ps.Pairwise Apart) (member : p ∈ ps) (hf : p.segment = .field f) :
    (ps.foldl (fun s p => p.read word s) given).get f.name = some (p.value word f) := by
  induction ps generalizing given with
  | nil => cases member
  | cons q rest ih =>
      obtain ⟨first, others⟩ := List.pairwise_cons.mp apart
      rw [List.foldl_cons]
      rcases List.mem_cons.mp member with rfl | later
      · rw [get_foldl_read_of_absent fun q later g hg same => first q later f g hf hg same.symm,
          get_read given hf, if_pos rfl]
      · exact ih others later

end Placement

namespace Layout

variable {l : Layout} {word : Word} {fields : FieldSet}

theorem Distinct.apart (h : l.Distinct) : l.placed.Pairwise Placement.Apart := by
  have segments : l.segments = l.placed.map Placement.segment :=
    (Segment.map_segment_place l.segments _).symm
  simp only [Distinct, Layout.fields, segments, List.Nodup, List.pairwise_map,
    List.pairwise_filterMap] at h
  exact h.imp fun {p q} apart f g hf hg => by simpa [hf, hg] using apart

theorem read_eq_restrict (distinct : l.Distinct) (held : ∀ p ∈ l.placed, p.Holds fields word) :
    l.read word = l.restrict fields := by
  ext1
  funext name
  simp only [read, restrict]
  split
  · next own =>
    obtain ⟨f, member, rfl⟩ := List.mem_map.mp own
    obtain ⟨p, placed, hf⟩ := mem_fields_iff.mp member
    rw [Placement.get_foldl_read_of_mem distinct.apart placed hf, (held p placed).get hf]
  · next other =>
    rw [Placement.get_foldl_read_of_absent]
    · rfl
    · rintro p placed f hf rfl
      exact other (List.mem_map.mpr ⟨f, mem_fields_iff.mpr ⟨p, placed, hf⟩, rfl⟩)

theorem matches_of_holds (held : ∀ p ∈ l.placed, p.Holds fields word) : l.Matches word := by
  intro p placed bits constant
  have holds := held p placed
  cases segment : p.segment with
  | field f => rw [segment] at constant; cases constant
  | constant w pattern =>
      simp only [segment, Segment.constant?, Option.some.injEq] at constant
      simp only [Placement.Holds, segment, Segment.pattern, constant, Except.ok.injEq] at holds
      exact holds.symm

theorem holds_read (distinct : l.Distinct) (h : l.Matches word) :
    ∀ p ∈ l.placed, p.Holds (l.read word) word := by
  intro p placed
  have width := Segment.width_of_mem_place placed
  cases segment : p.segment with
  | constant w pattern =>
      rw [Placement.Holds, segment, Segment.pattern, h p placed _ (by rw [segment]; rfl)]
  | field f =>
      have own : (l.read word).get f.name = some (p.value word f) :=
        Placement.get_foldl_read_of_mem distinct.apart placed segment
      have narrow (i : Nat) (above : f.width.bits ≤ i) :
          (p.range.extract .unsigned word).getLsbD i = false := by
        have outside : ¬ i < p.range.width.bits := by
          rw [width, segment, Segment.width]; omega
        rw [BitRange.getLsbD_extract, decide_eq_false outside, Bool.false_and]
      simp only [Placement.Holds, segment, Segment.pattern, own, Placement.value,
        Width.encode_decode_of_narrow narrow]

/-- Bit `i` of a word in this layout, where it is the same in every word. -/
def fixedBit? (l : Layout) (i : Nat) : Option Bool :=
  l.placed.findSome? fun p =>
    p.segment.constant?.bind fun bits =>
      if p.range.low ≤ i ∧ i ≤ p.range.high then some (bits.getLsbD (i - p.range.low)) else none

theorem Matches.getLsbD (h : l.Matches word) {i : Nat} {b : Bool} (fixed : l.fixedBit? i = some b) :
    word.getLsbD i = b := by
  obtain ⟨p, placed, found⟩ := List.exists_of_findSome?_eq_some fixed
  obtain ⟨bits, constant, found⟩ := Option.bind_eq_some_iff.mp found
  split at found
  · next inside =>
    cases found
    rw [← h p placed bits constant, BitRange.getLsbD_extract_sub word inside.1 inside.2]
  · cases found

end Layout

/-- Fields are told apart by name in every layout, and layouts by the selector bit. -/
def Format.WellFormed (f : Format) : Prop :=
  (∀ l ∈ f.layouts, l.Distinct) ∧
    match f with
    | .uniform _ => True
    | .selected bit clear set =>
      clear.fixedBit? bit = some false ∧ set.fixedBit? bit = some true

instance : DecidablePred Format.WellFormed
  | .uniform l => inferInstanceAs (Decidable ((∀ k ∈ [l], k.Distinct) ∧ True))
  | .selected bit l m =>
    inferInstanceAs (Decidable ((∀ k ∈ [l, m], k.Distinct) ∧
      (l.fixedBit? bit = some false ∧ m.fixedBit? bit = some true)))

theorem Opcode.wellFormed_of_format? {o : Opcode} {f : Format} (h : o.format? = some f) :
    f.WellFormed := by
  have table : ∀ f ∈ o.format?, f.WellFormed := by cases o <;> decide
  exact table f h

theorem Format.select_of_matches {f : Format} (wf : f.WellFormed) {mode : Nat} {l : Layout}
    (numbered : f.layouts[mode]? = some l) {word : Word} (h : l.Matches word) :
    f.modeOf word = mode ∧ f.layoutOf word = l := by
  cases f with
  | uniform k =>
      simp only [layouts, List.getElem?_singleton, Option.ite_none_right_eq_some] at numbered
      simp_all [modeOf, layoutOf]
  | selected bit clear set =>
      rcases mode with _ | _ | n
      · cases numbered
        simp only [modeOf, layoutOf, h.getLsbD wf.2.1, Bool.false_eq_true, if_false, and_self]
      · cases numbered
        simp only [modeOf, layoutOf, h.getLsbD wf.2.2, if_true, Nat.zero_add, and_self]
      · cases numbered

namespace Opcode

@[simp] theorem tag_ofTag (t : BitVec 4) : (ofTag t).tag = t := by
  revert t
  decide

theorem getLsbD_base (o : Opcode) {i : Nat} (h : 12 ≤ i) :
    o.base.getLsbD i = o.tag.getLsbD (i - 12) := by
  have below : ¬ i < 12 := by omega
  simp only [base, BitVec.getLsbD_shiftLeft, BitVec.getLsbD_setWidth, below]
  by_cases top : i < 16
  · simp [top, show i - 12 < 16 by omega]
  · simp [top, BitVec.getLsbD_of_ge o.tag (i - 12) (by omega)]

theorem of_eq_iff {word : Word} {o : Opcode} :
    of word = o ↔ ∀ i, 12 ≤ i → word.getLsbD i = o.base.getLsbD i := by
  constructor
  · rintro rfl i high
    rw [getLsbD_base _ high, of, tag_ofTag, BitVec.getLsbD_extractLsb', Nat.add_sub_cancel' high]
    by_cases top : i < 16
    · simp [show i - 12 < 4 by omega]
    · simp [BitVec.getLsbD_of_ge word i (by omega)]
  · intro same
    have tag : word.extractLsb' 12 4 = o.tag := by
      apply BitVec.eq_of_getLsbD_eq
      intro i hi
      rw [BitVec.getLsbD_extractLsb', decide_eq_true hi, Bool.true_and, same _ (by omega),
        getLsbD_base o (by omega), Nat.add_sub_cancel_left]
    rw [of, tag, ofTag_tag]

end Opcode
end LC3
