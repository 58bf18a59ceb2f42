import LC3.Instruction
import LC3.Proofs.Format.RoundTrip

/-!
Instructions and the words that are decoded to them. The parts of a word are those of an
instruction, one way for each layout, and the parts of an instruction make the instruction again.
So a word without wrong constants is what its instruction is encoded to. Main statements:
`ofParts_toParts`, `exists_toParts`, `parts_of_decode`, `encode_of_decode`.
-/

namespace LC3
namespace FieldSet

variable {as : List (FieldName × Int)} {f : FieldName} {v : Int}

theorem get_foldl_set_of_absent {s : FieldSet} (absent : f ∉ as.map Prod.fst) :
    (as.foldl (fun s a => s.set a.1 a.2) s).get f = s.get f := by
  induction as generalizing s with
  | nil => rfl
  | cons a rest ih =>
      rw [List.map_cons, List.mem_cons, not_or] at absent
      rw [List.foldl_cons, ih absent.2, get_set, if_neg absent.1]

/-- Where each field is assigned once, it has the value assigned. -/
theorem get_ofList_of_mem (once : (as.map Prod.fst).Nodup) (member : (f, v) ∈ as) :
    (ofList as).get f = some v := by
  rw [ofList]
  generalize empty = s
  induction as generalizing s with
  | nil => cases member
  | cons a rest ih =>
      obtain ⟨absent, once⟩ := List.nodup_cons.mp once
      rw [List.foldl_cons]
      rcases List.mem_cons.mp member with rfl | later
      · rw [get_foldl_set_of_absent absent, get_set, if_pos rfl]
      · exact ih once later _

/-- The assignments of all values of a set, each once, are the set. -/
theorem ofList_eq {s : FieldSet} (once : (as.map Prod.fst).Nodup)
    (given : ∀ a ∈ as, s.get a.1 = some a.2) (only : ∀ f ∉ as.map Prod.fst, s.get f = none) :
    ofList as = s := by
  ext1
  funext f
  by_cases own : f ∈ as.map Prod.fst
  · obtain ⟨a, member, rfl⟩ := List.mem_map.mp own
    rw [get_ofList_of_mem once member, given a member]
  · rw [ofList, get_foldl_set_of_absent own, get_empty, only f own]

end FieldSet

theorem Width.toNat_ofInt_of_mem_bounds {v : Int} (h : v ∈ Width.bounds 8 .unsigned) :
    ((BitVec.ofInt 8 v).toNat : Int) = v := by
  obtain ⟨low, high⟩ : 0 ≤ v ∧ v ≤ 255 := h
  rw [BitVec.toNat_ofInt]
  omega

namespace Parts

/-- The parts are those of a word in the layout: each of its fields has a value within bounds, and
no other field has one. -/
structure Of (l : Layout) (p : Parts) : Prop where
  layout : p.opcode.layout? p.mode = some l
  distinct : l.Distinct
  fits : ∀ f ∈ l.fields, f.Fits p.fields
  only : ∀ f ∉ l.fields.map Field.name, p.fields.get f = none

variable {d : Decoding} {word : Word} {p : Parts} {l : Layout} {f : FieldName}

theorem eq_of_decode (h : decode d word = .ok p) :
    ∃ format, (Opcode.of word).format? = some format ∧
      p = ⟨Opcode.of word, format.modeOf word, (format.layoutOf word).read word⟩ := by
  unfold decode at h
  simp only at h
  split at h
  · cases h
  · next format known =>
    refine ⟨format, known, ?_⟩
    split at h
    · cases h
    · cases h
      rfl

theorem exists_of_decode (h : decode d word = .ok p) : ∃ l, p.Of l := by
  obtain ⟨format, known, rfl⟩ := eq_of_decode h
  have numbered := format.layouts_modeOf word
  have distinct := (Opcode.wellFormed_of_format? known).1 _ (List.mem_of_getElem? numbered)
  refine ⟨format.layoutOf word, ⟨?_, distinct, fun f member => ?_, fun f absent => ?_⟩⟩
  · exact Opcode.layout?_eq_some_iff.mpr ⟨format, known, numbered⟩
  · obtain ⟨q, placed, segment⟩ := Layout.mem_fields_iff.mp member
    exact ⟨_, Placement.get_foldl_read_of_mem distinct.apart placed segment,
      Width.decode_mem_bounds f.width f.signedness _⟩
  · refine Placement.get_foldl_read_of_absent fun q placed g segment same => absent ?_
    exact List.mem_map.mpr ⟨g, Layout.mem_fields_iff.mpr ⟨q, placed, segment⟩, same⟩

namespace Of

/-- Values for the fields of the layout in its order make up the parts again. -/
theorem eq (h : p.Of l) {as : List (FieldName × Int)}
    (names : as.map Prod.fst = l.fields.map Field.name)
    (given : as.Forall fun a => p.fields.get a.1 = some a.2) :
    ⟨p.opcode, p.mode, .ofList as⟩ = p := by
  obtain ⟨opcode, mode, fields⟩ := p
  rw [Parts.mk.injEq]
  refine ⟨rfl, rfl, FieldSet.ofList_eq ?_ (List.forall_iff_forall_mem.mp given) ?_⟩
  · rw [names]
    exact h.distinct
  · rw [names]
    exact h.only

theorem exists_register (h : p.Of l) (member : ⟨f, 3, .unsigned⟩ ∈ l.fields) :
    ∃ r : Register, p.fields.get f = some (r.val : Int) := by
  obtain ⟨v, given, within⟩ := h.fits _ member
  obtain ⟨low, high⟩ : 0 ≤ v ∧ v ≤ 7 := within
  refine ⟨⟨v.toNat, by omega⟩, ?_⟩
  rw [given, Int.toNat_of_nonneg low]

theorem exists_offset (h : p.Of l) {w : Width} (member : ⟨f, w, .signed⟩ ∈ l.fields) :
    ∃ offset : Word, p.fields.get f = some offset.toInt := by
  obtain ⟨v, given, within⟩ := h.fits _ member
  exact ⟨BitVec.ofInt 16 v, by rw [given, Width.toInt_ofInt_of_mem_bounds within]⟩

theorem exists_flag (h : p.Of l) (member : ⟨f, 1, .unsigned⟩ ∈ l.fields) :
    ∃ b : Bool, p.fields.get f = some (if b then 1 else 0) := by
  obtain ⟨v, given, within⟩ := h.fits _ member
  obtain ⟨low, high⟩ : 0 ≤ v ∧ v ≤ 1 := within
  obtain rfl | rfl : v = 0 ∨ v = 1 := by omega
  · exact ⟨false, given⟩
  · exact ⟨true, given⟩

theorem exists_vector (h : p.Of l) (member : ⟨f, 8, .unsigned⟩ ∈ l.fields) :
    ∃ vector : BitVec 8, p.fields.get f = some (vector.toNat : Int) := by
  obtain ⟨v, given, within⟩ := h.fits _ member
  exact ⟨BitVec.ofInt 8 v, by rw [given, Width.toNat_ofInt_of_mem_bounds within]⟩

theorem registers (h : p.Of .registers) : ∃ dr sr1 sr2 : Register,
    ⟨p.opcode, p.mode, .ofList [(.dr, dr.val), (.sr1, sr1.val), (.sr2, sr2.val)]⟩ = p := by
  obtain ⟨dr, first⟩ := h.exists_register (f := .dr) (by decide)
  obtain ⟨sr1, second⟩ := h.exists_register (f := .sr1) (by decide)
  obtain ⟨sr2, third⟩ := h.exists_register (f := .sr2) (by decide)
  exact ⟨dr, sr1, sr2, h.eq rfl ⟨first, second, third⟩⟩

theorem immediate (h : p.Of .immediate) : ∃ (dr sr1 : Register) (imm5 : Word),
    ⟨p.opcode, p.mode, .ofList [(.dr, dr.val), (.sr1, sr1.val), (.imm5, imm5.toInt)]⟩ = p := by
  obtain ⟨dr, first⟩ := h.exists_register (f := .dr) (by decide)
  obtain ⟨sr1, second⟩ := h.exists_register (f := .sr1) (by decide)
  obtain ⟨imm5, third⟩ := h.exists_offset (f := .imm5) (w := 5) (by decide)
  exact ⟨dr, sr1, imm5, h.eq rfl ⟨first, second, third⟩⟩

theorem complement (h : p.Of .complement) : ∃ dr sr : Register,
    ⟨p.opcode, p.mode, .ofList [(.dr, dr.val), (.sr, sr.val)]⟩ = p := by
  obtain ⟨dr, first⟩ := h.exists_register (f := .dr) (by decide)
  obtain ⟨sr, second⟩ := h.exists_register (f := .sr) (by decide)
  exact ⟨dr, sr, h.eq rfl ⟨first, second⟩⟩

theorem branch (h : p.Of .branch) : ∃ (n z p' : Bool) (offset : Word),
    ⟨p.opcode, p.mode, .ofList [(.n, if n then 1 else 0), (.z, if z then 1 else 0),
      (.p, if p' then 1 else 0), (.pcOffset9, offset.toInt)]⟩ = p := by
  obtain ⟨n, first⟩ := h.exists_flag (f := .n) (by decide)
  obtain ⟨z, second⟩ := h.exists_flag (f := .z) (by decide)
  obtain ⟨p', third⟩ := h.exists_flag (f := .p) (by decide)
  obtain ⟨offset, last⟩ := h.exists_offset (f := .pcOffset9) (w := 9) (by decide)
  exact ⟨n, z, p', offset, h.eq rfl ⟨first, second, third, last⟩⟩

theorem relative (h : p.Of (.relative f)) : ∃ (r : Register) (offset : Word),
    ⟨p.opcode, p.mode, .ofList [(f, r.val), (.pcOffset9, offset.toInt)]⟩ = p := by
  obtain ⟨r, first⟩ := h.exists_register (f := f) (.head _)
  obtain ⟨offset, second⟩ := h.exists_offset (f := .pcOffset9) (w := 9) (.tail _ (.head _))
  exact ⟨r, offset, h.eq rfl ⟨first, second⟩⟩

theorem based (h : p.Of (.based f)) : ∃ (r base : Register) (offset : Word),
    ⟨p.opcode, p.mode, .ofList [(f, r.val), (.baseR, base.val), (.offset6, offset.toInt)]⟩ = p := by
  obtain ⟨r, first⟩ := h.exists_register (f := f) (.head _)
  obtain ⟨base, second⟩ := h.exists_register (f := .baseR) (.tail _ (.head _))
  obtain ⟨offset, third⟩ := h.exists_offset (f := .offset6) (w := 6) (.tail _ (.tail _ (.head _)))
  exact ⟨r, base, offset, h.eq rfl ⟨first, second, third⟩⟩

theorem indirect (h : p.Of .indirect) :
    ∃ base : Register, ⟨p.opcode, p.mode, .ofList [(.baseR, base.val)]⟩ = p := by
  obtain ⟨base, register⟩ := h.exists_register (f := .baseR) (by decide)
  exact ⟨base, h.eq rfl register⟩

theorem call (h : p.Of .call) :
    ∃ offset : Word, ⟨p.opcode, p.mode, .ofList [(.pcOffset11, offset.toInt)]⟩ = p := by
  obtain ⟨offset, given⟩ := h.exists_offset (f := .pcOffset11) (w := 11) (by decide)
  exact ⟨offset, h.eq rfl given⟩

theorem vector (h : p.Of .vector) :
    ∃ v : BitVec 8, ⟨p.opcode, p.mode, .ofList [(.trapVector8, v.toNat)]⟩ = p := by
  obtain ⟨v, given⟩ := h.exists_vector (f := .trapVector8) (by decide)
  exact ⟨v, h.eq rfl given⟩

theorem bare (h : p.Of .bare) : ⟨p.opcode, p.mode, .empty⟩ = p :=
  @Of.eq _ _ h [] rfl trivial

end Of

end Parts

namespace Instruction

variable {d : Decoding} {word : Word} {p : Parts} {l : Layout} {i : Instruction}

/-- The instruction without the condition bits that do not count. -/
def reduced : Instruction → Instruction
  | .br nzp offset => .br (nzp &&& 0b111) offset
  | i => i

theorem register_of_get {p : Parts} {f : FieldName} {r : Register}
    (given : p.fields.get f = some (r.val : Int)) : p.register f = .ok r := by
  have index : (BitVec.ofInt 16 (r.val : Int)).toNat = r.val := by
    have := r.isLt
    rw [BitVec.toNat_ofInt]
    omega
  simp only [Parts.register, Parts.word, Parts.value, given, Except.map, bind, Except.bind, index]
  rw [Register.ofIndex, dif_pos r.isLt]

theorem word_of_get {p : Parts} {f : FieldName} {w : Word}
    (given : p.fields.get f = some w.toInt) : p.word f = .ok w := by
  simp only [Parts.word, Parts.value, given, Except.map, BitVec.ofInt_toInt]

theorem secondSource_of_register {p : Parts} {sr2 : Register} (mode : p.mode = 0)
    (given : p.fields.get .sr2 = some (sr2.val : Int)) : p.secondSource = .ok (.register sr2) := by
  rw [Parts.secondSource, if_pos mode, register_of_get given]
  rfl

theorem secondSource_of_immediate {p : Parts} {imm5 : Word} (mode : p.mode = 1)
    (given : p.fields.get .imm5 = some imm5.toInt) : p.secondSource = .ok (.immediate imm5) := by
  rw [Parts.secondSource, if_neg (by rw [mode]; decide), word_of_get given]
  rfl

theorem flag_of_get {p : Parts} {f : FieldName} {nzp : Word} {n : Nat}
    (given : p.fields.get f = some (conditionBit nzp n)) :
    p.word f = .ok (if nzp.getLsbD n then 1 else 0) := by
  simp only [Parts.word, Parts.value, given, Except.map, conditionBit]
  split
  · rfl
  · rfl

theorem nzp_of_flags (nzp : Word) :
    let bit (n : Nat) : Word := if nzp.getLsbD n then 1 else 0
    bit 2 <<< 2 ||| bit 1 <<< 1 ||| bit 0 = nzp &&& 0b111 := by
  intro bit
  have low (n j : Nat) : (bit n).getLsbD j = (decide (j = 0) && nzp.getLsbD n) := by
    simp only [bit]
    split <;> simp_all [BitVec.getLsbD_one]
  apply BitVec.eq_of_getLsbD_eq
  intro j hj
  simp only [BitVec.getLsbD_or, BitVec.getLsbD_shiftLeft, BitVec.getLsbD_and, low]
  interval_cases j <;> simp

/-- The parts of an instruction make the instruction again. -/
theorem ofParts_toParts (i : Instruction) : ofParts i.toParts = .ok i.reduced := by
  cases i with
  | add dr sr1 src2 | and dr sr1 src2 =>
      cases src2 with
      | register sr2 =>
          exact Stage.bind_eq_ok.mpr ⟨dr, register_of_get rfl,
            Stage.bind_eq_ok.mpr ⟨sr1, register_of_get rfl,
              Stage.bind_eq_ok.mpr ⟨_, secondSource_of_register rfl rfl, rfl⟩⟩⟩
      | immediate imm5 =>
          exact Stage.bind_eq_ok.mpr ⟨dr, register_of_get rfl,
            Stage.bind_eq_ok.mpr ⟨sr1, register_of_get rfl,
              Stage.bind_eq_ok.mpr ⟨_, secondSource_of_immediate rfl rfl, rfl⟩⟩⟩
  | not dr sr =>
      exact Stage.bind_eq_ok.mpr ⟨dr, register_of_get rfl,
        Stage.bind_eq_ok.mpr ⟨sr, register_of_get rfl, rfl⟩⟩
  | br nzp offset =>
      refine Stage.bind_eq_ok.mpr ⟨_, flag_of_get rfl, Stage.bind_eq_ok.mpr ⟨_, flag_of_get rfl,
        Stage.bind_eq_ok.mpr ⟨_, flag_of_get rfl, Stage.bind_eq_ok.mpr ⟨_, word_of_get rfl, ?_⟩⟩⟩⟩
      rw [nzp_of_flags]
      rfl
  | jmp base | jsrr base => exact Stage.bind_eq_ok.mpr ⟨base, register_of_get rfl, rfl⟩
  | jsr offset => exact Stage.bind_eq_ok.mpr ⟨offset, word_of_get rfl, rfl⟩
  | ld r offset | ldi r offset | lea r offset | st r offset | sti r offset =>
      exact Stage.bind_eq_ok.mpr ⟨r, register_of_get rfl,
        Stage.bind_eq_ok.mpr ⟨offset, word_of_get rfl, rfl⟩⟩
  | ldr r base offset | str r base offset =>
      exact Stage.bind_eq_ok.mpr ⟨r, register_of_get rfl,
        Stage.bind_eq_ok.mpr ⟨base, register_of_get rfl,
          Stage.bind_eq_ok.mpr ⟨offset, word_of_get rfl, rfl⟩⟩⟩
  | rti => rfl
  | trap vector =>
      have same : BitVec.ofInt 8 (vector.toNat : Int) = vector := by
        rw [BitVec.ofInt_natCast, BitVec.ofNat_toNat, BitVec.setWidth_eq]
      refine Stage.bind_eq_ok.mpr ⟨vector.toNat, rfl, ?_⟩
      rw [same]
      rfl

/-- The condition bits that flags make up are these flags, and there are no others. -/
theorem conditionBit_of_flags (n z p : Bool) :
    let bit (b : Bool) : Word := if b then 1 else 0
    let nzp := bit n <<< 2 ||| bit z <<< 1 ||| bit p
    conditionBit nzp 2 = (if n then 1 else 0) ∧ conditionBit nzp 1 = (if z then 1 else 0) ∧
      conditionBit nzp 0 = (if p then 1 else 0) ∧ nzp &&& 0b111 = nzp := by
  revert n z p
  decide

/-- The parts of a word are those of an instruction without other condition bits. -/
theorem exists_toParts (of : p.Of l) : ∃ i : Instruction, i.toParts = p ∧ i.reduced = i := by
  have layout := of.layout
  obtain ⟨opcode, mode, fields⟩ := p
  cases opcode with
  | reserved => cases layout
  | add =>
      rcases mode with _ | _ | mode <;> cases layout
      · obtain ⟨dr, sr1, sr2, same⟩ := of.registers
        exact ⟨.add dr sr1 (.register sr2), same, rfl⟩
      · obtain ⟨dr, sr1, imm5, same⟩ := of.immediate
        exact ⟨.add dr sr1 (.immediate imm5), same, rfl⟩
  | and =>
      rcases mode with _ | _ | mode <;> cases layout
      · obtain ⟨dr, sr1, sr2, same⟩ := of.registers
        exact ⟨.and dr sr1 (.register sr2), same, rfl⟩
      · obtain ⟨dr, sr1, imm5, same⟩ := of.immediate
        exact ⟨.and dr sr1 (.immediate imm5), same, rfl⟩
  | not =>
      rcases mode with _ | mode <;> cases layout
      obtain ⟨dr, sr, same⟩ := of.complement
      exact ⟨.not dr sr, same, rfl⟩
  | br =>
      rcases mode with _ | mode <;> cases layout
      obtain ⟨n, z, p, offset, same⟩ := of.branch
      obtain ⟨bit_n, bit_z, bit_p, only⟩ := conditionBit_of_flags n z p
      refine ⟨.br _ offset, ?_, congrArg (Instruction.br · offset) only⟩
      rw [toParts, bit_n, bit_z, bit_p]
      exact same
  | jmp =>
      rcases mode with _ | mode <;> cases layout
      obtain ⟨base, same⟩ := of.indirect
      exact ⟨.jmp base, same, rfl⟩
  | jsr =>
      rcases mode with _ | _ | mode <;> cases layout
      · obtain ⟨base, same⟩ := of.indirect
        exact ⟨.jsrr base, same, rfl⟩
      · obtain ⟨offset, same⟩ := of.call
        exact ⟨.jsr offset, same, rfl⟩
  | ld =>
      rcases mode with _ | mode <;> cases layout
      obtain ⟨r, offset, same⟩ := of.relative
      exact ⟨.ld r offset, same, rfl⟩
  | ldi =>
      rcases mode with _ | mode <;> cases layout
      obtain ⟨r, offset, same⟩ := of.relative
      exact ⟨.ldi r offset, same, rfl⟩
  | lea =>
      rcases mode with _ | mode <;> cases layout
      obtain ⟨r, offset, same⟩ := of.relative
      exact ⟨.lea r offset, same, rfl⟩
  | st =>
      rcases mode with _ | mode <;> cases layout
      obtain ⟨r, offset, same⟩ := of.relative
      exact ⟨.st r offset, same, rfl⟩
  | sti =>
      rcases mode with _ | mode <;> cases layout
      obtain ⟨r, offset, same⟩ := of.relative
      exact ⟨.sti r offset, same, rfl⟩
  | ldr =>
      rcases mode with _ | mode <;> cases layout
      obtain ⟨r, base, offset, same⟩ := of.based
      exact ⟨.ldr r base offset, same, rfl⟩
  | str =>
      rcases mode with _ | mode <;> cases layout
      obtain ⟨r, base, offset, same⟩ := of.based
      exact ⟨.str r base offset, same, rfl⟩
  | rti =>
      rcases mode with _ | mode <;> cases layout
      exact ⟨.rti, of.bare, rfl⟩
  | trap =>
      rcases mode with _ | mode <;> cases layout
      obtain ⟨v, same⟩ := of.vector
      exact ⟨.trap v, same, rfl⟩

/-- The parts of a word are those of the instruction that they make. -/
theorem toParts_of_ofParts (of : p.Of l) (h : ofParts p = .ok i) : i.toParts = p := by
  obtain ⟨j, rfl, whole⟩ := exists_toParts of
  rw [ofParts_toParts, whole, Except.ok.injEq] at h
  rw [h]

/-- The parts of a word always make an instruction. -/
theorem exists_ofParts (of : p.Of l) : ∃ i, ofParts p = .ok i := by
  obtain ⟨i, rfl, -⟩ := exists_toParts of
  exact ⟨_, ofParts_toParts i⟩

theorem parts_of_decode (h : decode d word = .ok i) : Parts.decode d word = .ok i.toParts := by
  unfold decode at h
  split at h
  · next p decoded =>
    obtain ⟨l, of⟩ := Parts.exists_of_decode decoded
    rw [decoded, toParts_of_ofParts of h]
  · cases h

/-- A word is what the instruction that it is decoded to is encoded to. -/
theorem encode_of_decode (h : decode .strict word = .ok i) : i.encode = .ok word :=
  Parts.encode_of_decode (parts_of_decode h)

end Instruction
end LC3
