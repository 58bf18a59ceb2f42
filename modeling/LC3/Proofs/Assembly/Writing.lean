import LC3.Proofs.Assembly.Emission
import LC3.Proofs.Source.Lines
import LC3.Proofs.Word.Numeral

/-!
Assembly text for numbers, operands and instructions. What is written is read back: a number as its
value, an operand as itself, and the mnemonic and the operands of an instruction as a statement with
the word of the instruction. Main statements: `number_decimal`, `number_hexText`,
`OperandValue.Plain.ofToken`, `OperandValue.exists_operands`, `instructionWord_of_mnemonic?`.
-/

namespace LC3

/-- A number sign, a minus sign before a negative number, and decimal digits. -/
def Literal.decimal (v : Int) : List Char :=
  '#' :: if v < 0 then '-' :: Nat.toDigits 10 v.natAbs else Nat.toDigits 10 v.natAbs

theorem isNameChar_of_mem_toDigits {n : Nat} {c : Char} (h : c ∈ Nat.toDigits 10 n) :
    isNameChar c = true := by
  have digit := Nat.isDigit_of_mem_toDigits (by decide) (by decide) h
  simp [isNameChar, Char.isAlphanum, digit]

theorem isNameChar_of_mem_hexDigits {w : Word} {c : Char} (h : c ∈ w.hexDigits) :
    isNameChar c = true := by
  have each : ∀ nibble, isNameChar (Numeral.hexDigit nibble) = true := by decide
  obtain ⟨low, -, rfl⟩ := List.mem_map.mp h
  exact each _

theorem isHexDigit_of_mem_hexDigits {w : Word} {c : Char} (h : c ∈ w.hexDigits) :
    isHexDigit c = true := by
  obtain ⟨low, -, rfl⟩ := List.mem_map.mp h
  simp [isHexDigit]

theorem Literal.splitSign_of_all {text : List Char} (all : ∀ c ∈ text, isNameChar c = true) :
    splitSign text = (false, text) := by
  unfold splitSign
  split
  · cases all _ List.mem_cons_self
  · cases all _ List.mem_cons_self
  · rfl

namespace Token

variable {t : Token} {v : Int} {w : Word}

theorem signedValue_of_value {radix n : Nat} {body digits : List Char} {negative : Bool}
    (sign : Literal.splitSign body = (negative, digits))
    (value : Numeral.value radix digits = .ok n) (signed : v = if negative then -(n : Int) else n)
    (within : v ∈ Interval.literals) : t.signedValue radix body = .ok v := by
  subst signed
  simp only [signedValue, sign, value, within, if_true]

theorem number_decimal (h : t.piece = ⟨.decimalLiteral, Literal.decimal v⟩)
    (within : v ∈ Interval.literals) : t.number = .ok v := by
  obtain ⟨kind, start, text⟩ := t
  cases h
  have value : Numeral.value 10 (Nat.toDigits 10 v.natAbs) = .ok v.natAbs := by
    obtain ⟨low, high⟩ : -0x80000000 ≤ v ∧ v ≤ 0x7FFFFFFF := within
    have limit : Numeral.limit = 0x8000000000000000 := rfl
    exact Numeral.value_toDigits (by omega)
  change signedValue _ 10 (if v < 0 then _ else _) = _
  split
  · next negative =>
    exact signedValue_of_value rfl value (by simp only [if_true]; omega) within
  · next positive =>
    have unsigned := Literal.splitSign_of_all fun c => isNameChar_of_mem_toDigits (n := v.natAbs)
    exact signedValue_of_value unsigned value
      (by simp only [Bool.false_eq_true, if_false]; omega) within

theorem number_hexText (h : t.piece = ⟨.hexLiteral, w.hexText⟩) : t.number = .ok w.toNat := by
  obtain ⟨kind, start, text⟩ := t
  cases h
  have within : (w.toNat : Int) ∈ Interval.literals := w.toNat_mem_of_le (by decide) (by decide)
  have unsigned := Literal.splitSign_of_all fun c => isNameChar_of_mem_hexDigits (w := w)
  exact signedValue_of_value unsigned (Numeral.value_hexDigits w) rfl within

theorem role_hexText (h : t.piece = ⟨.hexLiteral, w.hexText⟩) : t.role = .hexLiteral := by
  obtain ⟨kind, start, text⟩ := t
  cases h
  have digits : w.hexDigits.any (fun d => !isHexDigit d) = false := by
    rw [List.any_eq_false]
    intro c member
    simp [isHexDigit_of_mem_hexDigits member]
  simp [role, isHexShapedName, digits]

end Token

namespace Piece

theorem before_decimal (v : Int) : (⟨.decimalLiteral, Literal.decimal v⟩ : Piece).Before [] := by
  have digits : ∀ c ∈ Nat.toDigits 10 v.natAbs, isNameChar c = true :=
    fun c => isNameChar_of_mem_toDigits
  have lexeme (text : List Char) : Lexeme.of '#' text =
      ⟨.decimalLiteral, Lexeme.signedRun (fun d => d == '-' || d == '+') text⟩ := rfl
  refine ⟨'#', _, rfl, ?_⟩
  rw [List.append_nil, lexeme, Lexeme.mk.injEq]
  refine ⟨rfl, ?_⟩
  split
  · exact congrArg (· + 1) (Lexeme.run_of_all digits)
  · refine Lexeme.signedRun_of_all digits fun c name => ?_
    rw [Bool.or_eq_false_iff, beq_eq_false_iff_ne, beq_eq_false_iff_ne]
    constructor <;> rintro rfl <;> cases name

theorem before_hexText (w : Word) : (⟨.hexLiteral, w.hexText⟩ : Piece).Before [] := by
  have digits : ∀ c ∈ w.hexDigits, isNameChar c = true := fun c => isNameChar_of_mem_hexDigits
  have first : Lexeme.startsWith (fun d => isHexDigit d || d == '-') w.hexDigits = true := by
    simp [Word.hexDigits, Lexeme.startsWith, isHexDigit]
  have lexeme : Lexeme.of 'x' w.hexDigits =
      ⟨.hexLiteral, Lexeme.signedRun (· == '-') w.hexDigits⟩ := by
    unfold Lexeme.of
    rw [first]
    rfl
  refine ⟨'x', _, rfl, ?_⟩
  rw [List.append_nil, lexeme, Lexeme.mk.injEq]
  refine ⟨rfl, Lexeme.signedRun_of_all digits fun c name => ?_⟩
  rw [beq_eq_false_iff_ne]
  rintro rfl
  cases name

end Piece

namespace OperandValue

def kind : OperandValue → TokenKind
  | .register _ => .identifier
  | .datum (.literal _) => .decimalLiteral
  | .datum (.label _) => .identifier

/-- The text of an operand: a register or a label by its name, a number in decimal. -/
def text : OperandValue → List Char
  | .register r => (Register.name r).toList
  | .datum (.literal v) => Literal.decimal v
  | .datum (.label name) => name

def piece (value : OperandValue) : Piece := ⟨value.kind, value.text⟩

/-- A register, or a number within the range of literals. -/
inductive Plain : OperandValue → Prop
  | register {r} : Plain (.register r)
  | literal {v} (within : v ∈ Interval.literals) : Plain (.datum (.literal v))

variable {value : OperandValue}

theorem Plain.isWord (h : value.Plain) : Line.IsWord value.piece := by
  cases h with
  | @register r => revert r; decide
  | literal => exact ⟨Piece.before_decimal _, rfl, nofun⟩

/-- An operand is read as it was written. -/
theorem Plain.ofToken (h : value.Plain) {t : Token} (same : t.piece = value.piece) :
    Operand.ofToken t = .ok ⟨value, t.span⟩ := by
  have kind : t.kind = value.kind := congrArg Piece.kind same
  have text : t.text = value.text := congrArg Piece.text same
  cases h with
  | @register r =>
      have named : ∀ r, Register.ofName? (Register.name r).toList = some r := by decide
      simp only [Operand.ofToken, Token.role, kind, OperandValue.kind, text, OperandValue.text,
        named]
  | literal within =>
      have number := Token.number_decimal same within
      simp only [Operand.ofToken, Token.role, kind, OperandValue.kind, number, Except.map]

theorem exists_operands {values : List OperandValue} (plain : ∀ value ∈ values, value.Plain)
    {tokens : List Token} (same : tokens.map Token.piece = values.map piece) :
    ∃ operands, tokens.mapM Operand.ofToken = .ok operands ∧
      operands.map Operand.value = values := by
  induction values generalizing tokens with
  | nil =>
      obtain rfl := List.map_eq_nil_iff.mp same
      exact ⟨[], rfl, rfl⟩
  | cons value values ih =>
      obtain ⟨first, plain⟩ := List.forall_mem_cons.mp plain
      obtain ⟨t, rest, rfl, own, others⟩ := List.map_eq_cons_iff.mp same
      obtain ⟨operands, read, valued⟩ := ih plain others
      refine ⟨⟨value, t.span⟩ :: operands, ?_, congrArg (value :: ·) valued⟩
      rw [List.mapM_cons, first.ofToken own, read]
      rfl

end OperandValue

theorem Operand.ofToken_hexText {t : Token} {w : Word} (h : t.piece = ⟨.hexLiteral, w.hexText⟩) :
    ofToken t = .ok ⟨.datum (.literal w.toNat), t.span⟩ := by
  simp only [ofToken, Token.role_hexText h, Token.number_hexText h, Except.map]

/-- The mnemonic as a word in capitals. -/
def Mnemonic.spelling : Mnemonic → List Char
  | .add => "ADD".toList
  | .and => "AND".toList
  | .not => "NOT".toList
  | .br .n => "BRN".toList
  | .br .z => "BRZ".toList
  | .br .p => "BRP".toList
  | .br .nz => "BRNZ".toList
  | .br .zp => "BRZP".toList
  | .br .np => "BRNP".toList
  | .br .nzp => "BRNZP".toList
  | .jmp => "JMP".toList
  | .ret => "RET".toList
  | .jsr => "JSR".toList
  | .jsrr => "JSRR".toList
  | .ld => "LD".toList
  | .ldi => "LDI".toList
  | .ldr => "LDR".toList
  | .lea => "LEA".toList
  | .st => "ST".toList
  | .sti => "STI".toList
  | .str => "STR".toList
  | .rti => "RTI".toList
  | .trap => "TRAP".toList
  | .service .getc => "GETC".toList
  | .service .out => "OUT".toList
  | .service .puts => "PUTS".toList
  | .service .input => "IN".toList
  | .service .putsp => "PUTSP".toList
  | .service .halt => "HALT".toList

theorem Mnemonic.isWord_spelling (m : Mnemonic) : Line.IsWord ⟨.identifier, m.spelling⟩ := by
  cases m with
  | br test => cases test <;> decide
  | service service => cases service <;> decide
  | _ => decide

theorem Mnemonic.ofName?_spelling (m : Mnemonic) : ofName? m.spelling = some m := by
  cases m with
  | br test => cases test <;> rfl
  | service service => cases service <;> rfl
  | _ => rfl

namespace Instruction

/-- The test of the condition bits that are set, if any of them is. -/
def test? (nzp : Word) : Option BranchTest :=
  match nzp.getLsbD 2, nzp.getLsbD 1, nzp.getLsbD 0 with
  | true, false, false => some .n
  | false, true, false => some .z
  | false, false, true => some .p
  | true, true, false => some .nz
  | false, true, true => some .zp
  | true, false, true => some .np
  | true, true, true => some .nzp
  | false, false, false => none

/-- The mnemonic of an instruction; a BR that tests no condition has none. -/
def mnemonic? : Instruction → Option Mnemonic
  | .add _ _ _ => some .add
  | .and _ _ _ => some .and
  | .not _ _ => some .not
  | .br nzp _ => (test? nzp).map .br
  | .jmp _ => some .jmp
  | .jsr _ => some .jsr
  | .jsrr _ => some .jsrr
  | .ld _ _ => some .ld
  | .ldi _ _ => some .ldi
  | .ldr _ _ _ => some .ldr
  | .lea _ _ => some .lea
  | .st _ _ => some .st
  | .sti _ _ => some .sti
  | .str _ _ _ => some .str
  | .rti => some .rti
  | .trap _ => some .trap

/-- A number in two's complement as an operand. -/
def signed (offset : Word) : OperandValue := .datum (.literal offset.toInt)

def secondOperand : SecondSource → OperandValue
  | .register sr2 => .register sr2
  | .immediate imm5 => signed imm5

def operands : Instruction → List OperandValue
  | .add dr sr1 src2 | .and dr sr1 src2 => [.register dr, .register sr1, secondOperand src2]
  | .not dr sr => [.register dr, .register sr]
  | .br _ offset | .jsr offset => [signed offset]
  | .jmp base | .jsrr base => [.register base]
  | .ld r offset | .ldi r offset | .lea r offset | .st r offset | .sti r offset =>
    [.register r, signed offset]
  | .ldr r base offset | .str r base offset => [.register r, .register base, signed offset]
  | .rti => []
  | .trap vector => [.datum (.literal vector.toNat)]

theorem plain_signed (offset : Word) : (signed offset).Plain := by
  have low := BitVec.le_toInt offset
  have high := BitVec.toInt_lt (x := offset)
  refine .literal ⟨?_, ?_⟩ <;> simp only [Interval.literals] <;> omega

theorem plain_operands (i : Instruction) : ∀ value ∈ i.operands, value.Plain := by
  have second (src2 : SecondSource) : (secondOperand src2).Plain := by
    cases src2 with
    | register sr2 => exact .register
    | immediate imm5 => exact plain_signed imm5
  have trap (vector : BitVec 8) : OperandValue.Plain (.datum (.literal vector.toNat)) := by
    have := vector.isLt
    refine .literal ⟨?_, ?_⟩ <;> simp only [Interval.literals] <;> omega
  cases i <;> simp [operands, OperandValue.Plain.register, plain_signed, second, trap]

theorem conditionBit_of_test? {nzp : Word} {test : BranchTest} (h : test? nzp = some test) :
    conditionBit test.bits 2 = conditionBit nzp 2 ∧
      conditionBit test.bits 1 = conditionBit nzp 1 ∧
        conditionBit test.bits 0 = conditionBit nzp 0 := by
  unfold test? at h
  unfold conditionBit
  split at h <;> cases h
  all_goals
    next n z p =>
    rw [n, z, p]
    decide

end Instruction

namespace Statement

variable {s : Statement} {symbols : SymbolTable} {m : Mnemonic} {operands : List Operand}
  {i : Instruction} {w : Word}

/-- A statement of the mnemonic and the operands of an instruction has its word. -/
theorem instructionWord_of_mnemonic? (named : i.mnemonic? = some m)
    (values : operands.map Operand.value = i.operands) (encoded : i.encode = .ok w) :
    s.instructionWord symbols m operands = .ok w := by
  cases i with
  | add dr sr1 src2 | and dr sr1 src2 =>
      cases named
      rcases operands with _ | ⟨⟨_, _⟩, _ | ⟨⟨_, _⟩, _ | ⟨⟨_, _⟩, _ | _⟩⟩⟩ <;> cases values
      cases src2 <;> refine instructionWord_of_encode rfl rfl ?_ <;> exact encoded
  | br nzp offset =>
      obtain ⟨test, tested, rfl⟩ := Option.map_eq_some_iff.mp named
      rcases operands with _ | ⟨⟨_, _⟩, _ | _⟩ <;> cases values
      obtain ⟨n, z, p⟩ := Instruction.conditionBit_of_test? tested
      rw [Instruction.encode, Instruction.toParts, ← n, ← z, ← p] at encoded
      refine instructionWord_of_encode rfl rfl ?_
      exact encoded
  | not | ld | ldi | lea | st | sti =>
      cases named
      rcases operands with _ | ⟨⟨_, _⟩, _ | ⟨⟨_, _⟩, _ | _⟩⟩ <;> cases values
      refine instructionWord_of_encode rfl rfl ?_
      exact encoded
  | ldr | str =>
      cases named
      rcases operands with _ | ⟨⟨_, _⟩, _ | ⟨⟨_, _⟩, _ | ⟨⟨_, _⟩, _ | _⟩⟩⟩ <;> cases values
      refine instructionWord_of_encode rfl rfl ?_
      exact encoded
  | jmp | jsr | jsrr | trap =>
      cases named
      rcases operands with _ | ⟨⟨_, _⟩, _ | _⟩ <;> cases values
      refine instructionWord_of_encode rfl rfl ?_
      exact encoded
  | rti =>
      cases named
      rcases operands with _ | _ <;> cases values
      refine instructionWord_of_encode rfl rfl ?_
      exact encoded

end Statement
end LC3
