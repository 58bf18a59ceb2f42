import LC3.Proofs.Assembly.Denotation

/-!
The operands that a mnemonic demands. An operand of the right form gives a field a value, which may
lie outside the bounds of the field; any other operand is wrong for a reason that its form and its
kind determine. Main statements: `fill_slot_eq_ok_iff`, `fill_slot_eq_error_iff`, `matches_of`.
-/

namespace LC3

/-- What an operand must be, with the field that it gives a value to. -/
inductive Form where
  | register (field : FieldName)
  | value (field : Field)
  /-- A register for one field, or else a value for the other. -/
  | either (register : FieldName) (value : Field)
  /-- A value, where a register would be taken for JSRR. -/
  | target (field : Field)
  deriving DecidableEq

/-- The operands of a mnemonic from the left. -/
def Mnemonic.forms : Mnemonic → List Form
  | .add | .and => [.register .dr, .register .sr1, .either .sr2 ⟨.imm5, 5, .signed⟩]
  | .not => [.register .dr, .register .sr]
  | .br _ => [.value ⟨.pcOffset9, 9, .signed⟩]
  | .jmp | .jsrr => [.register .baseR]
  | .jsr => [.target ⟨.pcOffset11, 11, .signed⟩]
  | .ld | .ldi | .lea => [.register .dr, .value ⟨.pcOffset9, 9, .signed⟩]
  | .st | .sti => [.register .sr, .value ⟨.pcOffset9, 9, .signed⟩]
  | .ldr => [.register .dr, .register .baseR, .value ⟨.offset6, 6, .signed⟩]
  | .str => [.register .sr, .register .baseR, .value ⟨.offset6, 6, .signed⟩]
  | .trap => [.value ⟨.trapVector8, 8, .unsigned⟩]
  | .ret | .rti | .service _ => []

namespace Form

/-- The operand is of the form and gives the field this value. -/
inductive Gives (here : Word) (symbols : SymbolTable) : Form → OperandValue → Field → Int → Prop
  | register {f r} : Gives here symbols (.register f) (.register r) ⟨f, 3, .unsigned⟩ (r.val : Nat)
  | value {f d v} (value : d.value? here symbols = some v) :
      Gives here symbols (.value f) (.datum d) f v
  | eitherRegister {f g r} :
      Gives here symbols (.either f g) (.register r) ⟨f, 3, .unsigned⟩ (r.val : Nat)
  | eitherValue {f g d v} (value : d.value? here symbols = some v) :
      Gives here symbols (.either f g) (.datum d) g v
  | target {f d v} (value : d.value? here symbols = some v) :
      Gives here symbols (.target f) (.datum d) f v

/-- The operand is of another kind than the form, or a label without an address. -/
inductive Wrong (symbols : SymbolTable) : Form → OperandValue → Problem → Prop
  | register {f d} : Wrong symbols (.register f) (.datum d) (.grammar (.registerExpected f))
  | value {f r} : Wrong symbols (.value f) (.register r) (.grammar (.valueExpected r))
  | target {f r} : Wrong symbols (.target f) (.register r) (.grammar .callTargetRegister)
  | undefinedValue {f name} (undefined : symbols.find? name = none) :
      Wrong symbols (.value f) (.datum (.label name)) (.undefinedSymbol name)
  | undefinedEither {f g name} (undefined : symbols.find? name = none) :
      Wrong symbols (.either f g) (.datum (.label name)) (.undefinedSymbol name)
  | undefinedTarget {f name} (undefined : symbols.find? name = none) :
      Wrong symbols (.target f) (.datum (.label name)) (.undefinedSymbol name)

/-- The operand gives its field a value within the bounds. -/
def Fits (here : Word) (symbols : SymbolTable) (form : Form) (value : OperandValue) : Prop :=
  ∃ f v, form.Gives here symbols value f v ∧ v ∈ f.bounds

/-- The field that an operand of this kind gives a value to. -/
def field : Form → OperandValue → Field
  | .register f, _ => ⟨f, 3, .unsigned⟩
  | .value f, _ => f
  | .either f _, .register _ => ⟨f, 3, .unsigned⟩
  | .either _ g, .datum _ => g
  | .target f, _ => f

/-- The slot that takes an operand of this kind. -/
def slot : Form → OperandValue → Slot
  | .register f, _ => .register f
  | .value f, _ => .value f.name
  | .either f _, .register _ => .register f
  | .either _ g, .datum _ => .value g.name
  | .target f, _ => .callTarget f.name

variable {here : Word} {symbols : SymbolTable} {form : Form} {value : OperandValue} {f : Field}
  {v : Int} {o : Operand}

theorem field_slot (form : Form) (value : OperandValue) :
    (form.slot value).field = (form.field value).name := by
  cases form with
  | either f g => cases value <;> rfl
  | _ => rfl

theorem Gives.field_eq (h : form.Gives here symbols value f v) : form.field value = f := by
  cases h <;> rfl

theorem relativeTo_eq_error_iff {d : Datum} {span : Span} {c : Complaint} :
    d.relativeTo here symbols span = .error c ↔
      ∃ name, d = .label name ∧ symbols.find? name = none ∧ c = ⟨span, .undefinedSymbol name⟩ := by
  cases d with
  | literal n => simp [Datum.relativeTo]
  | label name =>
      simp only [Datum.relativeTo, Stage.map_eq_error, Datum.address]
      cases found : symbols.find? name with
      | none => simp [found, eq_comm]
      | some a => simp [found]

theorem fill_slot_eq_ok_iff :
    (form.slot o.value).fill here symbols o = .ok v ↔
      form.Gives here symbols o.value (form.field o.value) v := by
  obtain ⟨value, span⟩ := o
  rw [Slot.fill_eq_ok_iff]
  constructor
  · intro h
    cases form <;> cases value <;> cases h
    · exact .register
    · next value => exact .value value
    · exact .eitherRegister
    · next value => exact .eitherValue value
    · next value => exact .target value
  · intro h
    cases form <;> cases value <;> cases h
    · exact .register
    · next value => exact .value value
    · exact .register
    · next value => exact .value value
    · next value => exact .callTarget value

theorem fill_slot_eq_error_iff {c : Complaint} :
    (form.slot o.value).fill here symbols o = .error c ↔
      ∃ problem, form.Wrong symbols o.value problem ∧ c = ⟨o.span, problem⟩ := by
  obtain ⟨value, span⟩ := o
  constructor
  · intro h
    cases form <;> cases value
    · cases h
    · cases h; exact ⟨_, .register, rfl⟩
    · cases h; exact ⟨_, .value, rfl⟩
    · obtain ⟨name, rfl, undefined, rfl⟩ := relativeTo_eq_error_iff.mp h
      exact ⟨_, .undefinedValue undefined, rfl⟩
    · cases h
    · obtain ⟨name, rfl, undefined, rfl⟩ := relativeTo_eq_error_iff.mp h
      exact ⟨_, .undefinedEither undefined, rfl⟩
    · cases h; exact ⟨_, .target, rfl⟩
    · obtain ⟨name, rfl, undefined, rfl⟩ := relativeTo_eq_error_iff.mp h
      exact ⟨_, .undefinedTarget undefined, rfl⟩
  · rintro ⟨problem, wrong, rfl⟩
    cases wrong with
    | register => rfl
    | value => rfl
    | target => rfl
    | undefinedValue undefined => exact relativeTo_eq_error_iff.mpr ⟨_, rfl, undefined, rfl⟩
    | undefinedEither undefined => exact relativeTo_eq_error_iff.mpr ⟨_, rfl, undefined, rfl⟩
    | undefinedTarget undefined => exact relativeTo_eq_error_iff.mpr ⟨_, rfl, undefined, rfl⟩

end Form

namespace Signature

/-- The fixed fields and some others are those of the layout, each once. -/
def Covers (s : Signature) (l : Layout) (fields : List Field) : Prop :=
  (s.fixed.map Prod.fst ++ fields.map Field.name).Nodup ∧ (∀ f ∈ fields, f ∈ l.fields) ∧
    ∀ f ∈ l.fields, f ∈ fields ∨ ∃ a ∈ s.fixed, a.1 = f.name ∧ a.2 ∈ f.bounds

instance (s : Signature) (l : Layout) (fields : List Field) : Decidable (s.Covers l fields) :=
  inferInstanceAs (Decidable (_ ∧ _ ∧ _))

/-- The slots and the layout of a signature are those of some operands and their forms. -/
structure Matches (s : Signature) (pairs : List (Form × Operand)) : Prop where
  slots : s.slots = pairs.map fun x => x.1.slot x.2.value
  covers : ∃ l, s.opcode.layout? s.mode = some l ∧
    s.Covers l (pairs.map fun x => x.1.field x.2.value)

theorem length_slots (m : Mnemonic) (operands : List Operand) :
    (of operands m).slots.length = m.forms.length := by
  cases m with
  | add => rcases arithmetic_eq .add operands with h | h <;> rw [of, h] <;> rfl
  | and => rcases arithmetic_eq .and operands with h | h <;> rw [of, h] <;> rfl
  | _ => rfl

theorem matches_of {m : Mnemonic} {operands : List Operand}
    (count : operands.length = m.forms.length) :
    (of operands m).Matches (m.forms.zip operands) := by
  cases m with
  | add | and =>
      obtain ⟨a, b, ⟨value, span⟩, rfl⟩ := List.length_eq_three.mp count
      cases value <;> exact ⟨rfl, _, rfl, of_decide_eq_true rfl⟩
  | ldr | str =>
      obtain ⟨a, b, c, rfl⟩ := List.length_eq_three.mp count
      exact ⟨rfl, _, rfl, of_decide_eq_true rfl⟩
  | not | ld | ldi | lea | st | sti =>
      obtain ⟨a, b, rfl⟩ := List.length_eq_two.mp count
      exact ⟨rfl, _, rfl, of_decide_eq_true rfl⟩
  | jmp | jsr | jsrr | trap =>
      obtain ⟨a, rfl⟩ := List.length_eq_one_iff.mp count
      exact ⟨rfl, _, rfl, of_decide_eq_true rfl⟩
  | br test =>
      obtain ⟨a, rfl⟩ := List.length_eq_one_iff.mp count
      cases test <;> exact ⟨rfl, _, rfl, of_decide_eq_true rfl⟩
  | ret | rti =>
      obtain rfl := List.length_eq_zero_iff.mp count
      exact ⟨rfl, _, rfl, of_decide_eq_true rfl⟩
  | service s =>
      obtain rfl := List.length_eq_zero_iff.mp count
      cases s <;> exact ⟨rfl, _, rfl, of_decide_eq_true rfl⟩

end Signature
end LC3
