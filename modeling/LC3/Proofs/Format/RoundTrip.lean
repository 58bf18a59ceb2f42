import LC3.Proofs.Format.Selection

/-!
Instruction words and their parts determine each other. A layout divides the low twelve bits of a
word exactly, so a word that is written holds the pattern of every segment, and a word that holds
them is the one that is written. Main statement: `codec_exact`.
-/

namespace LC3

/-- The layout that an opcode has under a number. -/
def Opcode.layout? (o : Opcode) (mode : Nat) : Option Layout :=
  o.format?.bind fun format => format.layouts[mode]?

theorem Opcode.layout?_eq_some_iff {o : Opcode} {mode : Nat} {l : Layout} :
    o.layout? mode = some l ↔
      ∃ format, o.format? = some format ∧ format.layouts[mode]? = some l :=
  Option.bind_eq_some_iff

namespace Layout

variable {l : Layout} {word base : Word} {fields : FieldSet}

theorem write_eq_ok_iff {o : Opcode} :
    l.write fields o.base = .ok word ↔
      (∀ p ∈ l.placed, p.Holds fields word) ∧ Opcode.of word = o := by
  rw [write, placed, Segment.write_place_eq_ok_iff, l.covers, Opcode.of_eq_iff]

theorem write_eq_error_iff {e : EncodeError} :
    l.write fields base = .error e ↔ l.placed.findSome? (·.segment.fault? fields) = some e := by
  rw [write, placed, Segment.write_place_eq_error_iff]

theorem findSome?_fault?_eq_none_iff :
    l.placed.findSome? (·.segment.fault? fields) = none ↔ ∀ f ∈ l.fields, f.Fits fields := by
  simp only [List.findSome?_eq_none_iff, mem_fields_iff, ← Field.fault?_eq_none_iff]
  constructor
  · rintro sound f ⟨p, placed, hf⟩
    have := sound p placed
    rwa [hf] at this
  · intro sound p placed
    cases segment : p.segment with
    | constant w pattern => rfl
    | field f => exact sound f ⟨p, placed, segment⟩

theorem exists_write_iff :
    (∃ word, l.write fields base = .ok word) ↔ ∀ f ∈ l.fields, f.Fits fields := by
  rw [← findSome?_fault?_eq_none_iff, Option.eq_none_iff_forall_ne_some]
  constructor
  · rintro ⟨word, written⟩ e fault
    rw [write_eq_error_iff.mpr fault] at written
    cases written
  · intro sound
    cases written : l.write fields base with
    | ok word => exact ⟨word, rfl⟩
    | error e => exact absurd (write_eq_error_iff.mp written) (sound e)

theorem pairwise_placed (l : Layout) :
    l.placed.Pairwise fun p q => q.range.high < p.range.low := Segment.pairwise_place

/-- The fault that is reported is that of the field with none at fault above it. -/
theorem write_eq_error_of_first {q : Placement} {f : Field} {e : EncodeError}
    (member : q ∈ l.placed) (hf : q.segment = .field f) (fault : f.fault? fields = some e)
    (above : ∀ r ∈ l.placed, q.range.high < r.range.low →
      ∀ g, r.segment = .field g → g.Fits fields) :
    l.write fields base = .error e := by
  obtain ⟨before, after, split⟩ := List.append_of_mem member
  have ordered := l.pairwise_placed
  rw [split] at ordered above
  have clean : before.findSome? (·.segment.fault? fields) = none := by
    rw [List.findSome?_eq_none_iff]
    intro r earlier
    cases segment : r.segment with
    | constant w pattern => rfl
    | field g =>
        have higher := (List.pairwise_append.mp ordered).2.2 r earlier q List.mem_cons_self
        exact Field.fault?_eq_none_iff.mpr
          (above r (List.mem_append_left _ earlier) higher g segment)
  have own : q.segment.fault? fields = some e := by rw [hf]; exact fault
  rw [write_eq_error_iff, split, List.findSome?_append, clean, List.findSome?_cons, own]
  rfl

theorem foldlM_write_congr {ps : List Placement} {given : FieldSet}
    (same : ∀ p ∈ ps, p.segment.pattern given = p.segment.pattern fields) :
    ps.foldlM (fun w p => p.write given w) base = ps.foldlM (fun w p => p.write fields w) base := by
  induction ps generalizing base with
  | nil => rfl
  | cons p rest ih =>
      have first := same p List.mem_cons_self
      have later : ∀ w, rest.foldlM (fun w p => p.write given w) w =
          rest.foldlM (fun w p => p.write fields w) w :=
        fun w => ih fun q hq => same q (List.mem_cons_of_mem p hq)
      simp only [List.foldlM_cons, Placement.write, first] at later ⊢
      simp only [later]

theorem write_restrict (l : Layout) (fields : FieldSet) (base : Word) :
    l.write (l.restrict fields) base = l.write fields base := by
  refine foldlM_write_congr fun p member => ?_
  cases segment : p.segment with
  | constant w pattern => rfl
  | field f =>
      have own : f.name ∈ l.fields.map Field.name :=
        List.mem_map.mpr ⟨f, mem_fields_iff.mpr ⟨p, member, segment⟩, rfl⟩
      simp only [Segment.pattern, restrict, if_pos own]

end Layout

namespace Parts

variable {p : Parts} {word : Word}

theorem encode_of_layout? {l : Layout} (h : p.opcode.layout? p.mode = some l) :
    p.encode = l.write p.fields p.opcode.base := by
  obtain ⟨format, known, numbered⟩ := Opcode.layout?_eq_some_iff.mp h
  simp only [encode, known, numbered]

theorem encode_of_format?_eq_none (h : p.opcode.format? = none) :
    p.encode = .error (.unknownOpcode p.opcode) := by
  simp only [encode, h]

theorem encode_of_layouts_eq_none {format : Format} (known : p.opcode.format? = some format)
    (h : format.layouts[p.mode]? = none) :
    p.encode = .error (.unknownMode p.opcode p.mode) := by
  simp only [encode, known, h]

theorem encode_eq_ok_iff :
    p.encode = .ok word ↔
      ∃ l, p.opcode.layout? p.mode = some l ∧ (∀ q ∈ l.placed, q.Holds p.fields word) ∧
        Opcode.of word = p.opcode := by
  constructor
  · intro h
    cases layout : p.opcode.layout? p.mode with
    | none =>
        simp only [Opcode.layout?, Option.bind_eq_none_iff] at layout
        cases known : p.opcode.format? with
        | none => rw [encode_of_format?_eq_none known] at h; cases h
        | some format =>
            rw [encode_of_layouts_eq_none known (layout format known)] at h; cases h
    | some l =>
        rw [encode_of_layout? layout, Layout.write_eq_ok_iff] at h
        exact ⟨l, rfl, h⟩
  · rintro ⟨l, layout, written⟩
    rw [encode_of_layout? layout]
    exact Layout.write_eq_ok_iff.mpr written

theorem decode_strict_eq_ok_iff :
    decode .strict word = .ok p ↔
      ∃ format, (Opcode.of word).format? = some format ∧ (format.layoutOf word).Matches word ∧
        p = ⟨Opcode.of word, format.modeOf word, (format.layoutOf word).read word⟩ := by
  simp only [decode, ← Layout.mismatch?_eq_none_iff]
  cases (Opcode.of word).format? with
  | none => simp
  | some format =>
      simp only [Option.some.injEq, exists_eq_left']
      cases (format.layoutOf word).mismatch? word <;> simp [eq_comm]

theorem exists_encode_iff : (∃ word, p.encode = .ok word) ↔
    ∃ l, p.opcode.layout? p.mode = some l ∧ ∀ f ∈ l.fields, f.Fits p.fields := by
  constructor
  · rintro ⟨word, written⟩
    obtain ⟨l, layout, _⟩ := encode_eq_ok_iff.mp written
    rw [encode_of_layout? layout] at written
    exact ⟨l, layout, Layout.exists_write_iff.mp ⟨word, written⟩⟩
  · rintro ⟨l, layout, fits⟩
    rw [encode_of_layout? layout]
    exact Layout.exists_write_iff.mpr fits

theorem decode_of_encode (h : p.encode = .ok word) :
    ∃ l, p.opcode.layout? p.mode = some l ∧
      decode .strict word = .ok ⟨p.opcode, p.mode, l.restrict p.fields⟩ := by
  obtain ⟨l, layout, held, opcode⟩ := encode_eq_ok_iff.mp h
  obtain ⟨format, known, numbered⟩ := Opcode.layout?_eq_some_iff.mp layout
  have wf := Opcode.wellFormed_of_format? known
  have fits := Layout.matches_of_holds held
  obtain ⟨mode, chosen⟩ := Format.select_of_matches wf numbered fits
  refine ⟨l, layout, decode_strict_eq_ok_iff.mpr ⟨format, by rw [opcode, known], ?_, ?_⟩⟩
  · rw [chosen]; exact fits
  · have distinct := wf.1 l (List.mem_of_getElem? numbered)
    rw [opcode, mode, chosen, Layout.read_eq_restrict distinct held]

/-- What encoding and strict decoding owe each other at some parts. -/
structure Exact (p : Parts) : Prop where
  /-- Parts make a word exactly where their layout exists and all its fields fit. -/
  encodes_iff : (∃ word, p.encode = .ok word) ↔
    ∃ l, p.opcode.layout? p.mode = some l ∧ ∀ f ∈ l.fields, f.Fits p.fields
  /-- Values of fields that the layout does not have make no difference. -/
  extra_ignored : ∀ l, p.opcode.layout? p.mode = some l → ∀ fields,
    l.restrict fields = l.restrict p.fields → encode { p with fields } = p.encode
  decodes : ∀ word, p.encode = .ok word → ∃ l, p.opcode.layout? p.mode = some l ∧
    decode .strict word = .ok { p with fields := l.restrict p.fields }
  unknown_opcode : p.opcode.format? = none → p.encode = .error (.unknownOpcode p.opcode)
  unknown_mode : ∀ format, p.opcode.format? = some format → format.layouts[p.mode]? = none →
    p.encode = .error (.unknownMode p.opcode p.mode)
  /-- Otherwise the error is that of a field at fault with none at fault above its bits. -/
  first_fault : ∀ l, p.opcode.layout? p.mode = some l → ∀ q ∈ l.placed, ∀ f e,
    q.segment = .field f → f.fault? p.fields = some e →
    (∀ r ∈ l.placed, q.range.high < r.range.low →
      ∀ g, r.segment = .field g → g.Fits p.fields) → p.encode = .error e
  encodes_back : ∀ word, decode .strict word = .ok p → p.encode = .ok word

theorem encode_of_decode (h : decode .strict word = .ok p) : p.encode = .ok word := by
  obtain ⟨format, known, fits, rfl⟩ := decode_strict_eq_ok_iff.mp h
  have numbered := format.layouts_modeOf word
  have distinct := (Opcode.wellFormed_of_format? known).1 _ (List.mem_of_getElem? numbered)
  exact encode_eq_ok_iff.mpr ⟨_, Opcode.layout?_eq_some_iff.mpr ⟨format, known, numbered⟩,
    Layout.holds_read distinct fits, rfl⟩

/-- Encoding and strict decoding are exact inverses of each other. -/
theorem codec_exact (p : Parts) : p.Exact where
  encodes_iff := exists_encode_iff
  extra_ignored l layout fields same := by
    rw [encode_of_layout? layout, encode_of_layout? (p := { p with fields }) layout,
      ← Layout.write_restrict, same, Layout.write_restrict]
  decodes _ written := decode_of_encode written
  unknown_opcode := encode_of_format?_eq_none
  unknown_mode _ := encode_of_layouts_eq_none
  first_fault l layout q member f e hf fault above := by
    rw [encode_of_layout? layout]
    exact Layout.write_eq_error_of_first member hf fault above
  encodes_back _ := encode_of_decode

end Parts
end LC3
