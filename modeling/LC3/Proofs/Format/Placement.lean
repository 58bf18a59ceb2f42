import LC3.Format.Parts
import LC3.Proofs.Stage
import LC3.Proofs.Word.Pattern

/-!
The segments of a layout, written one below the other. Writing them gives the one word that holds
the pattern of each of them, or stops at the first that has none. Main statements:
`write_place_eq_ok_iff`, `write_place_eq_error_iff`.
-/

namespace LC3

/-- What is wrong with the value given to a field, if anything. -/
def Field.fault? (fields : FieldSet) (f : Field) : Option EncodeError :=
  match fields.get f.name with
  | none => some (.missingField f.name)
  | some v => if v ∈ f.bounds then none else some (.overflow f.name v f.bounds)

/-- The field has a value, and one within its bounds. -/
def Field.Fits (fields : FieldSet) (f : Field) : Prop :=
  ∃ v, fields.get f.name = some v ∧ v ∈ f.bounds

theorem Field.fault?_eq_none_iff {fields : FieldSet} {f : Field} :
    f.fault? fields = none ↔ f.Fits fields := by
  unfold fault? Fits
  cases fields.get f.name <;> simp

namespace Segment

variable {fields : FieldSet}

def fault? (fields : FieldSet) : Segment → Option EncodeError
  | .constant _ _ => none
  | .field f => f.fault? fields

theorem pattern_eq_error_iff {s : Segment} {e : EncodeError} :
    s.pattern fields = .error e ↔ s.fault? fields = some e := by
  cases s with
  | constant w bits => simp [pattern, fault?]
  | field f =>
      simp only [pattern, fault?, Field.fault?]
      cases fields.get f.name with
      | none => simp
      | some v =>
          by_cases within : v ∈ f.bounds
          · have written := Width.encode_eq_ok_iff.mpr ⟨within, rfl⟩
            simp [within, written]
          · have refused := Width.encode_eq_error_iff.mpr ⟨within, rfl⟩
            simp [within, refused]

theorem getLsbD_pattern {s : Segment} {bits : Word} (h : s.pattern fields = .ok bits) {i : Nat}
    (above : s.width.bits ≤ i) : bits.getLsbD i = false := by
  cases s with
  | constant w pattern =>
      cases h
      simp only [BitVec.getLsbD_setWidth, BitVec.getLsbD_of_ge pattern i above, Bool.and_false]
  | field f =>
      simp only [pattern] at h
      split at h
      · cases h
      · next v _ =>
        split at h
        · next written => cases h; exact Width.getLsbD_of_encode written above
        · cases h

@[simp] theorem map_segment_place (segments : List Segment) (h : total segments ≤ 16) :
    (place segments h).map Placement.segment = segments := by
  induction segments with
  | nil => rfl
  | cons s rest ih => simp only [place, List.map_cons, ih]

theorem width_of_mem_place {segments : List Segment} {h : total segments ≤ 16} {p : Placement}
    (member : p ∈ place segments h) : p.range.width.bits = p.segment.width.bits := by
  induction segments with
  | nil => cases member
  | cons s rest ih =>
      have pos := s.width.pos
      simp only [place, List.mem_cons] at member
      rcases member with rfl | later
      · simp only [BitRange.width]; omega
      · exact ih later

theorem high_lt_of_mem_place {segments : List Segment} {h : total segments ≤ 16} {p : Placement}
    (member : p ∈ place segments h) : p.range.high < total segments := by
  induction segments with
  | nil => cases member
  | cons s rest ih =>
      have pos := s.width.pos
      simp only [place, List.mem_cons] at member
      simp only [total]
      rcases member with rfl | later
      · simp only; omega
      · have := ih later; omega

theorem pairwise_place {segments : List Segment} {h : total segments ≤ 16} :
    (place segments h).Pairwise fun p q => q.range.high < p.range.low := by
  induction segments with
  | nil => exact List.Pairwise.nil
  | cons s rest ih =>
      simp only [place, List.pairwise_cons]
      exact ⟨fun q later => high_lt_of_mem_place later, ih⟩

end Segment

/-- The bits of the placement are those that its segment holds under some field values. -/
def Placement.Holds (fields : FieldSet) (word : Word) (p : Placement) : Prop :=
  p.segment.pattern fields = .ok (p.range.extract .unsigned word)

theorem Placement.write_eq_ok_iff {fields : FieldSet} {p : Placement} {base word : Word} :
    p.write fields base = .ok word ↔
      ∃ bits, p.segment.pattern fields = .ok bits ∧ p.range.insert base bits = word :=
  Stage.map_eq_ok

theorem Placement.write_eq_error_iff {fields : FieldSet} {p : Placement} {base : Word}
    {e : EncodeError} :
    p.write fields base = .error e ↔ p.segment.fault? fields = some e :=
  Stage.map_eq_error.trans Segment.pattern_eq_error_iff

namespace Segment

variable {fields : FieldSet}

/-- Writing segments gives the one word that holds all their patterns and has the bits of `base`
above them. -/
theorem write_place_eq_ok_iff {segments : List Segment} {h : total segments ≤ 16}
    {base word : Word} :
    (place segments h).foldlM (fun w p => p.write fields w) base = .ok word ↔
      (∀ p ∈ place segments h, p.Holds fields word) ∧
        ∀ i, total segments ≤ i → word.getLsbD i = base.getLsbD i := by
  induction segments generalizing base with
  | nil =>
      simp only [place, List.foldlM_nil, List.not_mem_nil, false_implies, implies_true, true_and,
        total, Nat.zero_le, forall_const]
      constructor
      · intro same; cases same; exact fun _ => rfl
      · intro same; rw [BitVec.eq_of_getLsbD_eq fun i _ => same i]; rfl
  | cons s rest ih =>
      have pos := s.width.pos
      simp only [place, List.foldlM_cons, Stage.bind_eq_ok, Placement.write_eq_ok_iff,
        List.forall_mem_cons, total]
      constructor
      · rintro ⟨_, ⟨bits, pattern, rfl⟩, written⟩
        obtain ⟨held, above⟩ := ih.mp written
        refine ⟨⟨?_, held⟩, fun i hi => ?_⟩
        · rw [Placement.Holds, pattern, (BitRange.extract_eq_iff fun i hi => ?_).mpr]
          · intro i low high
            rw [above i low, BitRange.getLsbD_insert, if_pos ⟨low, high⟩]
          · refine getLsbD_pattern pattern ?_
            simp only [BitRange.width] at hi
            omega
        · rw [above i (by omega), BitRange.getLsbD_insert, if_neg (by simp only; omega)]
      · rintro ⟨⟨held, later⟩, above⟩
        refine ⟨_, ⟨_, held, rfl⟩, ih.mpr ⟨later, fun i hi => ?_⟩⟩
        rw [BitRange.getLsbD_insert]
        split
        · next inside =>
          exact (BitRange.getLsbD_extract_sub word inside.1 inside.2).symm
        · next outside => exact above i (by simp only at outside; omega)

/-- Writing stops at the first segment from the most significant end that has no pattern. -/
theorem write_place_eq_error_iff {segments : List Segment} {h : total segments ≤ 16} {base : Word}
    {e : EncodeError} :
    (place segments h).foldlM (fun w p => p.write fields w) base = .error e ↔
      (place segments h).findSome? (·.segment.fault? fields) = some e := by
  induction segments generalizing base with
  | nil => simp [place, pure, Except.pure]
  | cons s rest ih =>
      simp only [place, List.foldlM_cons, Stage.bind_eq_error, Placement.write_eq_error_iff,
        Placement.write_eq_ok_iff, List.findSome?_cons, ih]
      cases fault : s.fault? fields with
      | some e' =>
          rw [pattern_eq_error_iff.mpr fault]
          simp
      | none =>
          obtain ⟨bits, found⟩ : ∃ bits, s.pattern fields = .ok bits := by
            cases found : s.pattern fields with
            | error e' => rw [pattern_eq_error_iff.mp found] at fault; cases fault
            | ok bits => exact ⟨bits, rfl⟩
          simp [found]

end Segment
end LC3
