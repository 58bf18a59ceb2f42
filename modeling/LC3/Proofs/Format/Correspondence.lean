import LC3.Proofs.Format.Canonical

/-!
Instructions and words correspond one to one. An instruction has a word exactly where its offset or
immediate fits the field of its layout, and the word is decoded to the instruction again, the
condition bits that do not count apart. Main statement: `corresponds`.
-/

namespace LC3
namespace Instruction

/-- The field that an instruction gives an offset or immediate, and this value. -/
def signed? : Instruction → Option (Field × Word)
  | .add _ _ (.immediate imm5) | .and _ _ (.immediate imm5) =>
    some (⟨.imm5, 5, .signed⟩, imm5)
  | .br _ offset => some (⟨.pcOffset9, 9, .signed⟩, offset)
  | .ld _ offset | .ldi _ offset | .lea _ offset => some (⟨.pcOffset9, 9, .signed⟩, offset)
  | .st _ offset | .sti _ offset => some (⟨.pcOffset9, 9, .signed⟩, offset)
  | .jsr offset => some (⟨.pcOffset11, 11, .signed⟩, offset)
  | .ldr _ _ offset | .str _ _ offset => some (⟨.offset6, 6, .signed⟩, offset)
  | .add _ _ (.register _) | .and _ _ (.register _) | .not _ _ => none
  | .jmp _ | .jsrr _ | .rti | .trap _ => none

/-- What encoding an instruction and decoding owe each other. -/
structure Corresponds (i : Instruction) : Prop where
  encodes_iff : (∃ word, i.encode = .ok word) ↔
    ∀ f v, i.signed? = some (f, v) → v.toInt ∈ f.bounds
  decodes : ∀ word, i.encode = .ok word → decode .strict word = .ok i.reduced
  overflow : ∀ f v, i.signed? = some (f, v) → v.toInt ∉ f.bounds →
    i.encode = .error (.overflow f.name v.toInt f.bounds)
  /-- An instruction of a word is encoded to a word with the same parts, and to the word itself
  where the constant bits of the word were checked. -/
  encodes_back : ∀ d word, decode d word = .ok i →
    ∃ canonical parts, i.encode = .ok canonical ∧ Parts.decode d word = .ok parts ∧
      (∀ d', Parts.decode d' canonical = .ok parts) ∧ (d = .strict → canonical = word)

variable {i : Instruction} {l : Layout} {as : List (FieldName × Int)} {f : Field}

/-- What an instruction gives a field of its layout: the offset or immediate, or a value that always
fits. -/
inductive Gives (i : Instruction) : Field → FieldName × Int → Prop
  | signed {f : Field} {v : Word} (own : i.signed? = some (f, v)) : Gives i f (f.name, v.toInt)
  | fitting {f : Field} {v : Int} (within : v ∈ f.bounds) : Gives i f (f.name, v)

namespace Gives

theorem register {f : FieldName} (r : Register) :
    i.Gives ⟨f, 3, .unsigned⟩ (f, r.val) := by
  have within : (r.val : Int) ∈ Width.bounds 3 .unsigned :=
    Width.mem_bounds_unsigned.mpr ⟨Int.natCast_nonneg _, by exact_mod_cast r.isLt⟩
  exact .fitting within

theorem flag {f : FieldName} (nzp : Word) (n : Nat) :
    i.Gives ⟨f, 1, .unsigned⟩ (f, conditionBit nzp n) := by
  have within : conditionBit nzp n ∈ Width.bounds 1 .unsigned := by
    rw [conditionBit]
    split
    · decide
    · decide
  exact .fitting within

theorem vector {f : FieldName} (v : BitVec 8) :
    i.Gives ⟨f, 8, .unsigned⟩ (f, v.toNat) := by
  have within : (v.toNat : Int) ∈ Width.bounds 8 .unsigned :=
    Width.mem_bounds_unsigned.mpr ⟨Int.natCast_nonneg _, by exact_mod_cast v.isLt⟩
  exact .fitting within

/-- The values are given to the fields in the order of the layout. -/
theorem names {fields : List Field} (h : List.Forall₂ i.Gives fields as) :
    as.map Prod.fst = fields.map Field.name := by
  induction h with
  | nil => rfl
  | cons first _ ih =>
      rw [List.map_cons, List.map_cons, ih]
      cases first with
      | signed => rfl
      | fitting => rfl

end Gives

/-- The instruction gives each field of the layout one value, and no others. -/
structure Fills (i : Instruction) (l : Layout) (as : List (FieldName × Int)) : Prop where
  layout : i.toParts.opcode.layout? i.toParts.mode = some l
  fields : i.toParts.fields = .ofList as
  gives : List.Forall₂ i.Gives l.fields as
  signed : ∀ f v, i.signed? = some (f, v) → f ∈ l.fields ∧ (f.name, v.toInt) ∈ as

theorem exists_fills (i : Instruction) : ∃ l as, i.Fills l as := by
  cases i with
  | add dr sr1 src2 | and dr sr1 src2 =>
      cases src2 with
      | register sr2 =>
          exact ⟨_, _, rfl, rfl, .cons (.register dr) (.cons (.register sr1)
            (.cons (.register sr2) .nil)), nofun⟩
      | immediate imm5 =>
          refine ⟨_, _, rfl, rfl, .cons (.register dr) (.cons (.register sr1)
            (.cons (.signed rfl) .nil)), ?_⟩
          rintro f v ⟨⟩
          exact ⟨by decide, by simp⟩
  | not dr sr =>
      exact ⟨_, _, rfl, rfl, .cons (.register dr) (.cons (.register sr) .nil), nofun⟩
  | br nzp offset =>
      refine ⟨_, _, rfl, rfl, .cons (.flag nzp 2) (.cons (.flag nzp 1) (.cons (.flag nzp 0)
        (.cons (.signed rfl) .nil))), ?_⟩
      rintro f v ⟨⟩
      exact ⟨by decide, by simp⟩
  | jmp base | jsrr base => exact ⟨_, _, rfl, rfl, .cons (.register base) .nil, nofun⟩
  | jsr offset =>
      refine ⟨_, _, rfl, rfl, .cons (.signed rfl) .nil, ?_⟩
      rintro f v ⟨⟩
      exact ⟨by decide, by simp⟩
  | ld r offset | ldi r offset | lea r offset | st r offset | sti r offset =>
      refine ⟨_, _, rfl, rfl, .cons (.register r) (.cons (.signed rfl) .nil), ?_⟩
      rintro f v ⟨⟩
      exact ⟨by decide, by simp⟩
  | ldr r base offset | str r base offset =>
      refine ⟨_, _, rfl, rfl, .cons (.register r) (.cons (.register base)
        (.cons (.signed rfl) .nil)), ?_⟩
      rintro f v ⟨⟩
      exact ⟨by decide, by simp⟩
  | rti => exact ⟨_, [], rfl, rfl, .nil, nofun⟩
  | trap vector => exact ⟨_, _, rfl, rfl, .cons (.vector vector) .nil, nofun⟩

namespace Fills

theorem distinct (h : i.Fills l as) : l.Distinct := by
  obtain ⟨format, known, numbered⟩ := Opcode.layout?_eq_some_iff.mp h.layout
  exact (Opcode.wellFormed_of_format? known).1 l (List.mem_of_getElem? numbered)

theorem get_of_mem (h : i.Fills l as) {name : FieldName} {v : Int} (member : (name, v) ∈ as) :
    i.toParts.fields.get name = some v := by
  rw [h.fields]
  exact FieldSet.get_ofList_of_mem (Gives.names h.gives ▸ h.distinct) member

/-- A field that an instruction does not give its offset or immediate has a value that fits. -/
theorem fits_or_signed (h : i.Fills l as) (member : f ∈ l.fields) :
    f.Fits i.toParts.fields ∨ ∃ v, i.signed? = some (f, v) := by
  obtain ⟨a, inside, given⟩ := Stage.exists_of_forall₂_left h.gives member
  cases given with
  | signed own => exact .inr ⟨_, own⟩
  | fitting within => exact .inl ⟨_, h.get_of_mem inside, within⟩

theorem get_signed (h : i.Fills l as) {v : Word} (own : i.signed? = some (f, v)) :
    i.toParts.fields.get f.name = some v.toInt :=
  h.get_of_mem (h.signed f v own).2

theorem fits_iff (h : i.Fills l as) :
    (∀ f ∈ l.fields, f.Fits i.toParts.fields) ↔
      ∀ f v, i.signed? = some (f, v) → v.toInt ∈ f.bounds := by
  constructor
  · intro fit f v own
    obtain ⟨v', given, within⟩ := fit f (h.signed f v own).1
    rw [h.get_signed own, Option.some.injEq] at given
    exact given ▸ within
  · intro within f member
    rcases h.fits_or_signed member with fits | ⟨v, own⟩
    · exact fits
    · exact ⟨_, h.get_signed own, within f v own⟩

/-- No field has a fault but the one that the offset or immediate is given to. -/
theorem overflow_of_fault? (h : i.Fills l as) {e : EncodeError} (member : f ∈ l.fields)
    (fault : f.fault? i.toParts.fields = some e) :
    ∃ v, i.signed? = some (f, v) ∧ e = .overflow f.name v.toInt f.bounds := by
  rcases h.fits_or_signed member with fits | ⟨v, own⟩
  · rw [Field.fault?_eq_none_iff.mpr fits] at fault
    cases fault
  · refine ⟨v, own, ?_⟩
    simp only [Field.fault?, h.get_signed own] at fault
    split at fault
    · cases fault
    · exact (Option.some.inj fault).symm

/-- The parts of an instruction have no fields besides those of the layout. -/
theorem restrict_eq (h : i.Fills l as) : l.restrict i.toParts.fields = i.toParts.fields := by
  ext1
  funext name
  simp only [Layout.restrict]
  split
  · rfl
  · next other =>
    rw [← Gives.names h.gives] at other
    rw [h.fields, FieldSet.ofList, FieldSet.get_foldl_set_of_absent other, FieldSet.get_empty]

end Fills

theorem encode_eq_overflow (h : i.Fills l as) {v : Word} (own : i.signed? = some (f, v))
    (outside : v.toInt ∉ f.bounds) : i.encode = .error (.overflow f.name v.toInt f.bounds) := by
  cases written : i.encode with
  | ok word =>
      obtain ⟨l', layout, fit⟩ := Parts.exists_encode_iff.mp ⟨word, written⟩
      obtain rfl := Option.some.inj (layout.symm.trans h.layout)
      exact absurd (h.fits_iff.mp fit f v own) outside
  | error e =>
      rw [encode, Parts.encode_of_layout? h.layout, Layout.write_eq_error_iff] at written
      obtain ⟨q, placed, fault⟩ := List.exists_of_findSome?_eq_some written
      cases segment : q.segment with
      | constant w pattern =>
          rw [segment] at fault
          cases fault
      | field g =>
          rw [segment] at fault
          have member := Layout.mem_fields_iff.mpr ⟨q, placed, segment⟩
          obtain ⟨v', own', rfl⟩ := h.overflow_of_fault? member fault
          rw [own, Option.some.injEq, Prod.mk.injEq] at own'
          obtain ⟨rfl, rfl⟩ := own'
          rfl

theorem decode_of_encode {word : Word} (h : i.Fills l as) (written : i.encode = .ok word) :
    decode .strict word = .ok i.reduced := by
  obtain ⟨l', layout, decoded⟩ := Parts.decode_of_encode written
  obtain rfl := Option.some.inj (layout.symm.trans h.layout)
  rw [h.restrict_eq] at decoded
  exact decode_eq_ok_iff.mpr ⟨i.toParts, decoded, ofParts_toParts i⟩

/-- Instructions and words correspond. -/
theorem corresponds (i : Instruction) : i.Corresponds where
  encodes_iff := by
    obtain ⟨l, as, fills⟩ := i.exists_fills
    rw [← fills.fits_iff]
    refine Parts.exists_encode_iff.trans ⟨?_, fun fit => ⟨l, fills.layout, fit⟩⟩
    rintro ⟨l', layout, fit⟩
    obtain rfl := Option.some.inj (layout.symm.trans fills.layout)
    exact fit
  decodes word written := by
    obtain ⟨l, as, fills⟩ := i.exists_fills
    exact decode_of_encode fills written
  overflow f v own outside := by
    obtain ⟨l, as, fills⟩ := i.exists_fills
    exact encode_eq_overflow fills own outside
  encodes_back d word decoded := by
    have parts := parts_of_decode decoded
    obtain ⟨l, canonical, -, written, strict, -⟩ := Parts.exists_canonical parts
    refine ⟨canonical, i.toParts, written, parts, Parts.decode_of_strict strict, ?_⟩
    · rintro rfl
      exact Except.ok.inj (written.symm.trans (encode_of_decode decoded))

end Instruction
end LC3
