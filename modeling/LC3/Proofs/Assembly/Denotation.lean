import LC3.Assembly.Encoding
import LC3.Proofs.Format.Correspondence

/-!
What a statement of the source stands for. A mnemonic and its operands denote one instruction, in
which a label counts from the word after the statement, and the word of the statement is decoded to
that instruction. Mnemonics with operands of the same kinds are one family. Main statements:
`Denoted.of_takeAll`, `exists_denotes`.
-/

namespace LC3
namespace Datum

variable {here : Word} {symbols : SymbolTable} {d : Datum} {span : Span} {v : Int}

/-- The number that a datum is for the instruction at `here`. -/
def value? (here : Word) (symbols : SymbolTable) : Datum → Option Int
  | .literal v => some v
  | .label name => (symbols.find? name).map fun a => (a.toNat : Int) - (here.toNat + 1)

/-- The datum is a number within the signed bounds of a width, and the word is that number. -/
def Gives (here : Word) (symbols : SymbolTable) (w : Width) (d : Datum) (offset : Word) : Prop :=
  d.value? here symbols = some offset.toInt ∧ offset.toInt ∈ w.bounds .signed

theorem relativeTo_eq_ok_iff :
    d.relativeTo here symbols span = .ok v ↔ d.value? here symbols = some v := by
  cases d with
  | literal n => simp [relativeTo, value?]
  | label name =>
      simp only [relativeTo, value?, Stage.map_eq_ok, address, Option.map_eq_some_iff]
      cases symbols.find? name <;> simp

theorem gives_of_value? {w : Width} (value : d.value? here symbols = some v)
    (within : v ∈ w.bounds .signed) : d.Gives here symbols w (BitVec.ofInt 16 v) := by
  rw [Gives, Width.toInt_ofInt_of_mem_bounds within]
  exact ⟨value, within⟩

end Datum

/-- The letters of the suffix; BR alone tests what all three do. -/
def BranchTest.letters : BranchTest → List Char
  | .n => ['N']
  | .z => ['Z']
  | .p => ['P']
  | .nz => ['N', 'Z']
  | .zp => ['Z', 'P']
  | .np => ['N', 'P']
  | .nzp => ['N', 'Z', 'P']

/-- The condition bits of the letters of the suffix. -/
def BranchTest.flags (test : BranchTest) : Word :=
  (if 'N' ∈ test.letters then 0b100 else 0) ||| (if 'Z' ∈ test.letters then 0b010 else 0) |||
    (if 'P' ∈ test.letters then 0b001 else 0)

theorem BranchTest.bits_eq_flags (test : BranchTest) : test.bits = test.flags := by
  cases test <;> rfl

theorem Mnemonic.ofName?_letters (test : BranchTest) :
    ofName? ('B' :: 'R' :: test.letters) = some (.br test) := by
  cases test <;> rfl

/-- The aliases of TRAP, each with its vector. -/
def Service.vectors : List (Service × BitVec 8) :=
  [(.getc, 0x20), (.out, 0x21), (.puts, 0x22), (.input, 0x23), (.putsp, 0x24), (.halt, 0x25)]

theorem Service.mem_vectors_iff {s : Service} {v : BitVec 8} :
    (s, v) ∈ vectors ↔ v = s.vector := by
  cases s <;> simp [vectors, vector]

namespace Mnemonic

/-- The mnemonics of two registers and a register or value. -/
inductive Arithmetic : Mnemonic → (Register → Register → SecondSource → Instruction) → Prop
  | add : Arithmetic .add .add
  | and : Arithmetic .and .and

/-- The mnemonics of a register and an offset from the program counter. -/
inductive Relative : Mnemonic → (Register → Word → Instruction) → Prop
  | ld : Relative .ld .ld
  | ldi : Relative .ldi .ldi
  | lea : Relative .lea .lea
  | st : Relative .st .st
  | sti : Relative .sti .sti

/-- The mnemonics of a register and an offset from a base register. -/
inductive Based : Mnemonic → (Register → Register → Word → Instruction) → Prop
  | ldr : Based .ldr .ldr
  | str : Based .str .str

/-- The mnemonics of a register that holds the address to go to. -/
inductive Indirect : Mnemonic → (Register → Instruction) → Prop
  | jmp : Indirect .jmp .jmp
  | jsrr : Indirect .jsrr .jsrr

end Mnemonic

/-- The instruction that a mnemonic and its operands denote at an address. -/
inductive Denotes (here : Word) (symbols : SymbolTable) :
    Mnemonic → List OperandValue → Instruction → Prop
  | registers {m make dr sr1 sr2} (family : m.Arithmetic make) : Denotes here symbols m
      [.register dr, .register sr1, .register sr2] (make dr sr1 (.register sr2))
  | immediate {m make dr sr1 d imm5} (family : m.Arithmetic make)
      (given : d.Gives here symbols 5 imm5) : Denotes here symbols m
      [.register dr, .register sr1, .datum d] (make dr sr1 (.immediate imm5))
  | not {dr sr} : Denotes here symbols .not [.register dr, .register sr] (.not dr sr)
  | br {test d offset} (given : d.Gives here symbols 9 offset) :
      Denotes here symbols (.br test) [.datum d] (.br test.flags offset)
  | indirect {m make base} (family : m.Indirect make) :
      Denotes here symbols m [.register base] (make base)
  | ret : Denotes here symbols .ret [] (.jmp 7)
  | jsr {d offset} (given : d.Gives here symbols 11 offset) :
      Denotes here symbols .jsr [.datum d] (.jsr offset)
  | relative {m make r d offset} (family : m.Relative make)
      (given : d.Gives here symbols 9 offset) :
      Denotes here symbols m [.register r, .datum d] (make r offset)
  | based {m make r base d offset} (family : m.Based make)
      (given : d.Gives here symbols 6 offset) :
      Denotes here symbols m [.register r, .register base, .datum d] (make r base offset)
  | rti : Denotes here symbols .rti [] .rti
  | trap {d v} (value : d.value? here symbols = some v)
      (within : v ∈ (8 : Width).bounds .unsigned) :
      Denotes here symbols .trap [.datum d] (.trap (BitVec.ofInt 8 v))
  | service {s v} (listed : (s, v) ∈ Service.vectors) :
      Denotes here symbols (.service s) [] (.trap v)

namespace Slot

variable {here : Word} {symbols : SymbolTable}

inductive Takes (here : Word) (symbols : SymbolTable) : Slot → OperandValue → Int → Prop
  | register {f r} : Takes here symbols (.register f) (.register r) (r.val : Nat)
  | value {f d v} (value : d.value? here symbols = some v) :
      Takes here symbols (.value f) (.datum d) v
  | callTarget {f d v} (value : d.value? here symbols = some v) :
      Takes here symbols (.callTarget f) (.datum d) v

/-- The fields that some slots fill, each from one operand. -/
inductive TakeAll (here : Word) (symbols : SymbolTable) :
    List Slot → List OperandValue → List (FieldName × Int) → Prop
  | nil : TakeAll here symbols [] [] []
  | cons {slot value v slots values given} (first : Takes here symbols slot value v)
      (others : TakeAll here symbols slots values given) :
      TakeAll here symbols (slot :: slots) (value :: values) ((slot.field, v) :: given)

theorem fill_eq_ok_iff {s : Slot} {o : Operand} {v : Int} :
    s.fill here symbols o = .ok v ↔ s.Takes here symbols o.value v := by
  obtain ⟨value, span⟩ := o
  constructor
  · intro h
    cases s with
    | register f =>
        cases value with
        | register r => cases h; exact .register
        | datum d => cases h
    | value f =>
        cases value with
        | register r => cases h
        | datum d => exact .value (Datum.relativeTo_eq_ok_iff.mp h)
    | callTarget f =>
        cases value with
        | register r => cases h
        | datum d => exact .callTarget (Datum.relativeTo_eq_ok_iff.mp h)
  · intro h
    cases h with
    | register => rfl
    | value value => exact Datum.relativeTo_eq_ok_iff.mpr value
    | callTarget value => exact Datum.relativeTo_eq_ok_iff.mpr value

theorem takeAll_of_forall₂ {slots : List Slot} {operands : List Operand}
    {assigned : List Assignment} (count : operands.length = slots.length)
    (h : List.Forall₂ (fun so a => (so.1.fill here symbols so.2).map
      (fun v => (⟨so.1.field, v, so.2.span⟩ : Assignment)) = .ok a) (slots.zip operands) assigned) :
    TakeAll here symbols slots (operands.map Operand.value)
      (assigned.map fun a => (a.field, a.value)) := by
  induction slots generalizing operands assigned with
  | nil =>
      obtain rfl := List.length_eq_zero_iff.mp count
      cases h
      exact .nil
  | cons slot slots ih =>
      cases operands with
      | nil => cases count
      | cons o operands =>
          cases h with
          | cons first others =>
              obtain ⟨v, filled, rfl⟩ := Stage.map_eq_ok.mp first
              exact .cons (fill_eq_ok_iff.mp filled) (ih (Nat.succ.inj count) others)

end Slot

theorem Signature.arithmetic_eq (o : Opcode) (operands : List Operand) :
    arithmetic o operands =
        { opcode := o, mode := 0, slots := [.register .dr, .register .sr1, .register .sr2] } ∨
      arithmetic o operands =
        { opcode := o, mode := 1, slots := [.register .dr, .register .sr1, .value .imm5] } := by
  unfold arithmetic
  split
  · exact .inl rfl
  · exact .inr rfl

/-- The parts of a signature whose slots give these fields. -/
def Signature.filled (s : Signature) (given : List (FieldName × Int)) : Parts :=
  ⟨s.opcode, s.mode, .ofList (s.fixed ++ given)⟩

/-- An instruction has a word where its slots take its operands and its parts have one. -/
theorem Statement.takeAll_of_instructionWord {s : Statement} {symbols : SymbolTable} {m : Mnemonic}
    {operands : List Operand} {w : Word} (h : s.instructionWord symbols m operands = .ok w) :
    ∃ given, Slot.TakeAll s.address symbols (Signature.of operands m).slots
        (operands.map Operand.value) given ∧
      ((Signature.of operands m).filled given).encode = .ok w := by
  unfold instructionWord at h
  simp only at h
  split at h
  · next count =>
    obtain ⟨assigned, filled, h⟩ := Stage.bind_eq_ok.mp h
    refine ⟨_, Slot.takeAll_of_forall₂ count (Stage.mapM_eq_ok_iff.mp filled), ?_⟩
    split at h
    · next encoded => cases h; exact encoded
    · cases h
    · cases h
  · cases h

namespace Parts

variable {p : Parts} {l : Layout} {f : FieldName} {w : Width} {word : Word} {v : Int}

/-- A value of parts that have a word is within the bounds of its field. -/
theorem mem_bounds_of_encode {f : Field} (encoded : p.encode = .ok word)
    (layout : p.opcode.layout? p.mode = some l) (member : f ∈ l.fields)
    (given : p.fields.get f.name = some v) : v ∈ f.bounds := by
  rw [encode_of_layout? layout] at encoded
  obtain ⟨v', own, within⟩ := Layout.exists_write_iff.mp ⟨word, encoded⟩ f member
  obtain rfl := Option.some.inj (given.symm.trans own)
  exact within

theorem toInt_ofInt_of_encode (encoded : p.encode = .ok word)
    (layout : p.opcode.layout? p.mode = some l) (member : ⟨f, w, .signed⟩ ∈ l.fields)
    (given : p.fields.get f = some v) :
    v ∈ w.bounds .signed ∧ (BitVec.ofInt 16 v).toInt = v := by
  have within : v ∈ w.bounds .signed := mem_bounds_of_encode encoded layout member given
  exact ⟨within, Width.toInt_ofInt_of_mem_bounds within⟩

end Parts

/-- The operands denote an instruction, which has these parts. -/
def Denoted (here : Word) (symbols : SymbolTable) (m : Mnemonic) (values : List OperandValue)
    (p : Parts) : Prop :=
  ∃ i, Denotes here symbols m values i ∧ i.toParts = p ∧ i.reduced = i

namespace Denoted

variable {here : Word} {symbols : SymbolTable} {m : Mnemonic} {values : List OperandValue}
  {operands : List Operand} {given : List (FieldName × Int)} {w : Word} {o : Opcode} {f : FieldName}

theorem registers {make : Register → Register → SecondSource → Instruction}
    (family : m.Arithmetic make)
    (parts : ∀ dr sr1 src2, (make dr sr1 src2).toParts = Instruction.arithmetic o dr sr1 src2)
    (taken : Slot.TakeAll here symbols [.register .dr, .register .sr1, .register .sr2] values
      given) :
    Denoted here symbols m values ⟨o, 0, .ofList given⟩ := by
  rcases taken with _ | ⟨⟨⟩, _ | ⟨⟨⟩, _ | ⟨⟨⟩, _ | _⟩⟩⟩
  refine ⟨_, .registers family, parts _ _ _, ?_⟩
  cases family
  · rfl
  · rfl

theorem immediate {make : Register → Register → SecondSource → Instruction}
    (family : m.Arithmetic make) (layout : o.layout? 1 = some .immediate)
    (parts : ∀ dr sr1 src2, (make dr sr1 src2).toParts = Instruction.arithmetic o dr sr1 src2)
    (taken : Slot.TakeAll here symbols [.register .dr, .register .sr1, .value .imm5] values given)
    (encoded : Parts.encode ⟨o, 1, .ofList given⟩ = .ok w) :
    Denoted here symbols m values ⟨o, 1, .ofList given⟩ := by
  rcases taken with _ | ⟨⟨⟩, _ | ⟨⟨⟩, _ | ⟨_ | ⟨value⟩, _ | _⟩⟩⟩
  obtain ⟨within, same⟩ := Parts.toInt_ofInt_of_encode (f := .imm5) (w := 5) encoded layout
    (by decide) rfl
  refine ⟨_, .immediate family (Datum.gives_of_value? value within), ?_, ?_⟩
  · rw [parts, Instruction.arithmetic, same]
    rfl
  · cases family
    · rfl
    · rfl

/-- The mode of ADD and AND follows the third operand. -/
theorem arithmetic {make : Register → Register → SecondSource → Instruction}
    (family : m.Arithmetic make) (layout : o.layout? 1 = some .immediate)
    (parts : ∀ dr sr1 src2, (make dr sr1 src2).toParts = Instruction.arithmetic o dr sr1 src2)
    (taken : Slot.TakeAll here symbols (Signature.arithmetic o operands).slots values given)
    (encoded : ((Signature.arithmetic o operands).filled given).encode = .ok w) :
    Denoted here symbols m values ((Signature.arithmetic o operands).filled given) := by
  rcases Signature.arithmetic_eq o operands with chosen | chosen
  · rw [chosen] at taken ⊢
    exact registers family parts taken
  · rw [chosen] at taken encoded ⊢
    exact immediate family layout parts taken encoded

theorem relative {make : Register → Word → Instruction} (family : m.Relative make)
    (layout : o.layout? 0 = some (.relative f))
    (parts : ∀ r offset,
      (make r offset).toParts = ⟨o, 0, .ofList [(f, r.val), (.pcOffset9, offset.toInt)]⟩)
    (taken : Slot.TakeAll here symbols [.register f, .value .pcOffset9] values given)
    (encoded : Parts.encode ⟨o, 0, .ofList given⟩ = .ok w) :
    Denoted here symbols m values ⟨o, 0, .ofList given⟩ := by
  rcases taken with _ | ⟨⟨⟩, _ | ⟨_ | ⟨value⟩, _ | _⟩⟩
  obtain ⟨within, same⟩ := Parts.toInt_ofInt_of_encode (f := .pcOffset9) (w := 9) encoded layout
    (.tail _ (.head _)) rfl
  refine ⟨_, .relative family (Datum.gives_of_value? value within), ?_, ?_⟩
  · rw [parts, same]
    rfl
  · cases family
    all_goals rfl

theorem based {make : Register → Register → Word → Instruction} (family : m.Based make)
    (layout : o.layout? 0 = some (.based f))
    (parts : ∀ r base offset, (make r base offset).toParts =
      ⟨o, 0, .ofList [(f, r.val), (.baseR, base.val), (.offset6, offset.toInt)]⟩)
    (taken : Slot.TakeAll here symbols [.register f, .register .baseR, .value .offset6] values
      given)
    (encoded : Parts.encode ⟨o, 0, .ofList given⟩ = .ok w) :
    Denoted here symbols m values ⟨o, 0, .ofList given⟩ := by
  rcases taken with _ | ⟨⟨⟩, _ | ⟨⟨⟩, _ | ⟨_ | ⟨value⟩, _ | _⟩⟩⟩
  obtain ⟨within, same⟩ := Parts.toInt_ofInt_of_encode (f := .offset6) (w := 6) encoded layout
    (.tail _ (.tail _ (.head _))) rfl
  refine ⟨_, .based family (Datum.gives_of_value? value within), ?_, ?_⟩
  · rw [parts, same]
    rfl
  · cases family
    all_goals rfl

theorem indirect {make : Register → Instruction} (family : m.Indirect make)
    (parts : ∀ base, (make base).toParts = ⟨o, 0, .ofList [(.baseR, base.val)]⟩)
    (taken : Slot.TakeAll here symbols [.register .baseR] values given) :
    Denoted here symbols m values ⟨o, 0, .ofList given⟩ := by
  rcases taken with _ | ⟨⟨⟩, _ | _⟩
  refine ⟨_, .indirect family, parts _, ?_⟩
  cases family
  all_goals rfl

theorem branch {test : BranchTest}
    (taken : Slot.TakeAll here symbols (Signature.branch test).slots values given)
    (encoded : ((Signature.branch test).filled given).encode = .ok w) :
    Denoted here symbols (.br test) values ((Signature.branch test).filled given) := by
  rcases taken with _ | ⟨_ | ⟨value⟩, _ | _⟩
  obtain ⟨within, same⟩ := Parts.toInt_ofInt_of_encode (f := .pcOffset9) (w := 9) encoded rfl
    (by decide) rfl
  refine ⟨_, .br (Datum.gives_of_value? value within), ?_, ?_⟩
  · rw [Instruction.toParts, same, ← test.bits_eq_flags]
    rfl
  · cases test
    all_goals rfl

theorem call (taken : Slot.TakeAll here symbols [.callTarget .pcOffset11] values given)
    (encoded : Parts.encode ⟨.jsr, 1, .ofList given⟩ = .ok w) :
    Denoted here symbols .jsr values ⟨.jsr, 1, .ofList given⟩ := by
  rcases taken with _ | ⟨_ | _ | ⟨value⟩, _ | _⟩
  obtain ⟨within, same⟩ := Parts.toInt_ofInt_of_encode (f := .pcOffset11) (w := 11) encoded rfl
    (by decide) rfl
  refine ⟨_, .jsr (Datum.gives_of_value? value within), ?_, rfl⟩
  rw [Instruction.toParts, same]
  rfl

theorem trap (taken : Slot.TakeAll here symbols [.value .trapVector8] values given)
    (encoded : Parts.encode ⟨.trap, 0, .ofList given⟩ = .ok w) :
    Denoted here symbols .trap values ⟨.trap, 0, .ofList given⟩ := by
  rcases taken with _ | ⟨_ | ⟨value⟩, _ | _⟩
  have within := Parts.mem_bounds_of_encode (f := ⟨.trapVector8, 8, .unsigned⟩) encoded rfl
    (by decide) rfl
  refine ⟨_, .trap value within, ?_, rfl⟩
  rw [Instruction.toParts, Width.toNat_ofInt_of_mem_bounds within]
  rfl

/-- Operands that fill the slots of a mnemonic, with a word for the parts, denote an instruction. -/
theorem of_takeAll
    (taken : Slot.TakeAll here symbols (Signature.of operands m).slots values given)
    (encoded : ((Signature.of operands m).filled given).encode = .ok w) :
    Denoted here symbols m values ((Signature.of operands m).filled given) := by
  cases m with
  | add => exact arithmetic .add rfl (fun _ _ _ => rfl) taken encoded
  | and => exact arithmetic .and rfl (fun _ _ _ => rfl) taken encoded
  | not =>
      rcases taken with _ | ⟨⟨⟩, _ | ⟨⟨⟩, _ | _⟩⟩
      exact ⟨_, .not, rfl, rfl⟩
  | br test => exact branch taken encoded
  | jmp => exact indirect .jmp (fun _ => rfl) taken
  | ret =>
      rcases taken with _ | _
      exact ⟨_, .ret, rfl, rfl⟩
  | jsr => exact call taken encoded
  | jsrr => exact indirect .jsrr (fun _ => rfl) taken
  | ld => exact relative .ld rfl (fun _ _ => rfl) taken encoded
  | ldi => exact relative .ldi rfl (fun _ _ => rfl) taken encoded
  | ldr => exact based .ldr rfl (fun _ _ _ => rfl) taken encoded
  | lea => exact relative .lea rfl (fun _ _ => rfl) taken encoded
  | st => exact relative .st rfl (fun _ _ => rfl) taken encoded
  | sti => exact relative .sti rfl (fun _ _ => rfl) taken encoded
  | str => exact based .str rfl (fun _ _ _ => rfl) taken encoded
  | rti =>
      rcases taken with _ | _
      exact ⟨_, .rti, rfl, rfl⟩
  | trap => exact trap taken encoded
  | service service =>
      rcases taken with _ | _
      exact ⟨_, .service (Service.mem_vectors_iff.mpr rfl), rfl, rfl⟩

end Denoted

/-- The word of a statement is decoded to the instruction that its mnemonic and operands denote. -/
theorem Statement.exists_denotes {s : Statement} {symbols : SymbolTable} {m : Mnemonic}
    {operands : List Operand} {w : Word} (h : s.instructionWord symbols m operands = .ok w) :
    ∃ i, Denotes s.address symbols m (operands.map Operand.value) i ∧
      Instruction.decode .strict w = .ok i := by
  obtain ⟨given, taken, encoded⟩ := takeAll_of_instructionWord h
  obtain ⟨i, denotes, parts, whole⟩ := Denoted.of_takeAll taken encoded
  have own : i.encode = .ok w := by rw [Instruction.encode, parts, encoded]
  obtain ⟨l, as, fills⟩ := i.exists_fills
  refine ⟨i, denotes, ?_⟩
  rw [Instruction.decode_of_encode fills own, whole]

end LC3
