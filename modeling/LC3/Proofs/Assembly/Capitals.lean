import LC3.Proofs.Assembly.Entries

/-!
Capitals. Mnemonics, directives, registers and numbers say the same in capitals, and nothing that is
none of them becomes one. Labels and strings are kept as they are written. Main statements:
`isLiteral_capitals_iff`, `alike_fold`, `acts_fold_iff`.
-/

namespace LC3

/-- What holds of the first 128 characters and their capitals, and of every character that is its
own capital, holds of all characters. -/
theorem toUpper_cases {R : Char → Char → Prop} (ascii : ∀ n < 128, R (.ofNat n) (Char.ofNat n).toUpper)
    (same : ∀ c, c.toUpper = c → R c c) (c : Char) : R c c.toUpper := by
  by_cases small : c.toNat < 128
  · have own := ascii c.toNat small
    rwa [Char.ofNat_toNat] at own
  · have other : ¬ ('a'.val ≤ c.val ∧ c.val ≤ 'z'.val) := fun letter =>
      small (Nat.lt_of_le_of_lt letter.2 (by decide))
    have own : c.toUpper = c := dif_neg other
    rw [own]
    exact same c own

theorem toUpper_toUpper (c : Char) : c.toUpper.toUpper = c.toUpper :=
  toUpper_cases (R := fun _ d => d.toUpper = d) (by decide) (fun _ own => own) c

theorem isNameChar_toUpper (c : Char) : isNameChar c.toUpper = isNameChar c :=
  toUpper_cases (R := fun c d => isNameChar d = isNameChar c) (by decide) (fun _ _ => rfl) c

theorem toUpper_map_toUpper (text : List Char) :
    (text.map Char.toUpper).map Char.toUpper = text.map Char.toUpper := by
  simp only [List.map_map, Function.comp_def, toUpper_toUpper]

namespace Numeral

theorem digit?_toUpper {radix : Nat} (known : radix = 10 ∨ radix = 16) (c : Char) :
    digit? radix c.toUpper = digit? radix c := by
  rcases known with rfl | rfl
  · exact toUpper_cases (R := fun c d => digit? 10 d = digit? 10 c) (by decide) (fun _ _ => rfl) c
  · exact toUpper_cases (R := fun c d => digit? 16 d = digit? 16 c) (by decide) (fun _ _ => rfl) c

theorem spells_capitals_iff {radix : Nat} (known : radix = 10 ∨ radix = 16) {text : List Char}
    {digits : List Nat} : Spells radix (text.map Char.toUpper) digits ↔ Spells radix text digits := by
  simp only [Spells, List.forall₂_map_left_iff, digit?_toUpper known]

theorem splitSign_cons (c : Char) (rest : List Char) : Literal.splitSign (c :: rest) =
    if c = '-' then (true, rest) else if c = '+' then (false, rest) else (false, c :: rest) := by
  unfold Literal.splitSign
  split <;> simp_all

theorem dropHexPrefix_cons (c : Char) (rest : List Char) : dropHexPrefix (c :: rest) =
    if c = 'x' ∨ c = 'X' then rest
    else if c = '0' ∧ ∃ d ∈ rest.head?, d = 'x' ∨ d = 'X' then rest.tail
    else c :: rest := by
  unfold dropHexPrefix
  split <;> simp_all
  rintro rfl d first mark
  obtain ⟨more, rfl⟩ := List.head?_eq_some_iff.mp first
  rcases mark with rfl | rfl <;> simp_all

theorem dropNumberSign_cons (c : Char) (rest : List Char) :
    Literal.dropNumberSign (c :: rest) = if c = '#' then rest else c :: rest := by
  unfold Literal.dropNumberSign
  split <;> simp_all

/-- Marks and signs are the same in capitals, but for the x of a hexadecimal number. -/
theorem mark_toUpper_iff (c : Char) : (c.toUpper = '-' ↔ c = '-') ∧ (c.toUpper = '+' ↔ c = '+') ∧
    (c.toUpper = '#' ↔ c = '#') ∧ (c.toUpper = '0' ↔ c = '0') ∧
      (c.toUpper = 'x' ∨ c.toUpper = 'X' ↔ c = 'x' ∨ c = 'X') :=
  toUpper_cases (R := fun c d => (d = '-' ↔ c = '-') ∧ (d = '+' ↔ c = '+') ∧ (d = '#' ↔ c = '#') ∧
    (d = '0' ↔ c = '0') ∧ (d = 'x' ∨ d = 'X' ↔ c = 'x' ∨ c = 'X')) (by decide) (by simp) c

theorem splitSign_capitals (text : List Char) : Literal.splitSign (text.map Char.toUpper) =
    ((Literal.splitSign text).1, (Literal.splitSign text).2.map Char.toUpper) := by
  cases text with
  | nil => rfl
  | cons c rest =>
      obtain ⟨minus, plus, -⟩ := mark_toUpper_iff c
      simp only [List.map_cons, splitSign_cons, minus, plus]
      split
      · rfl
      · split <;> rfl

theorem dropHexPrefix_capitals (text : List Char) :
    dropHexPrefix (text.map Char.toUpper) = (dropHexPrefix text).map Char.toUpper := by
  cases text with
  | nil => rfl
  | cons c rest =>
      obtain ⟨-, -, -, zero, mark⟩ := mark_toUpper_iff c
      have next : (∃ d ∈ (rest.map Char.toUpper).head?, d = 'x' ∨ d = 'X') ↔
          ∃ d ∈ rest.head?, d = 'x' ∨ d = 'X' := by
        cases rest with
        | nil => simp
        | cons d more => simpa using (mark_toUpper_iff d).2.2.2.2
      simp only [List.map_cons, dropHexPrefix_cons, zero, mark, next]
      split
      · rfl
      · split
        · exact List.map_tail.symm
        · rfl

theorem dropNumberSign_capitals (text : List Char) :
    Literal.dropNumberSign (text.map Char.toUpper) =
      (Literal.dropNumberSign text).map Char.toUpper := by
  cases text with
  | nil => rfl
  | cons c rest =>
      obtain ⟨-, -, sign, -⟩ := mark_toUpper_iff c
      simp only [List.map_cons, dropNumberSign_cons, sign]
      split <;> rfl

theorem signed_capitals_iff {radix : Nat} (known : radix = 10 ∨ radix = 16) {text : List Char}
    {v : Int} : Signed radix (text.map Char.toUpper) v ↔ Signed radix text v := by
  simp only [signed_iff, splitSign_capitals, spells_capitals_iff known, ne_eq, List.map_eq_nil_iff]

end Numeral

namespace Piece

/-- The piece in capitals. -/
def capitals (p : Piece) : Piece := { p with text := p.text.map Char.toUpper }

instance (p : Piece) : Decidable p.IsName :=
  decidable_of_iff (p.kind = .identifier ∨ p.kind = .hexLiteral ∧
    Token.isHexShapedName p.text = true) (by rw [Token.isHexShapedName_iff]; rfl)

instance (p : Piece) : Decidable p.IsLabel := inferInstanceAs (Decidable (_ ∧ _ ∧ _))

variable {p : Piece} {v : Int}

theorem isHexShaped_capitals_iff {text : List Char} :
    IsHexShaped (text.map Char.toUpper) ↔ IsHexShaped text := by
  have digit (c : Char) : isHexDigit c.toUpper = isHexDigit c := by
    rw [isHexDigit, Numeral.digit?_toUpper (.inr rfl), isHexDigit]
  cases text with
  | nil => simp [IsHexShaped]
  | cons c rest =>
      simp only [IsHexShaped, List.map_cons, List.cons.injEq, ↓existsAndEq, and_true,
        List.mem_map, forall_exists_index, and_imp, forall_apply_eq_imp_iff₂, isNameChar_toUpper,
        exists_exists_and_eq_and, digit, (Numeral.mark_toUpper_iff c).2.2.2.2]

theorem isLiteral_iff : p.IsLiteral v ↔ v ∈ Interval.literals ∧
    (p.kind = .hexLiteral ∧ Numeral.Signed 16 (Numeral.dropHexPrefix p.text) v ∨
      p.kind = .decimalLiteral ∧ Numeral.Signed 10 (Literal.dropNumberSign p.text) v) := by
  obtain ⟨kind, text⟩ := p
  have number : Token.number ⟨kind, 0, text⟩ = .ok v ↔ IsLiteral ⟨kind, text⟩ v :=
    Token.number_eq_ok_iff
  rw [← number]
  cases kind with
  | hexLiteral | decimalLiteral =>
      simp [Token.number, Token.signedValue_eq_ok_iff, and_comm]
  | _ => simp [Token.number]

theorem isLiteral_capitals_iff : p.capitals.IsLiteral v ↔ p.IsLiteral v := by
  simp only [isLiteral_iff, capitals, Numeral.dropHexPrefix_capitals,
    Numeral.dropNumberSign_capitals, Numeral.signed_capitals_iff (.inl rfl),
    Numeral.signed_capitals_iff (.inr rfl)]

theorem isName_capitals_iff : p.capitals.IsName ↔ p.IsName := by
  simp only [IsName, capitals, isHexShaped_capitals_iff]

theorem isMnemonic_capitals_iff {m : Mnemonic} : p.capitals.IsMnemonic m ↔ p.IsMnemonic m := by
  simp only [IsMnemonic, isName_capitals_iff]
  simp only [capitals, Mnemonic.ofName?, toUpper_map_toUpper]

theorem isDirective_capitals_iff {d : Directive} : p.capitals.IsDirective d ↔ p.IsDirective d := by
  simp only [IsDirective, capitals, Directive.ofName?, toUpper_map_toUpper]

theorem ofName?_capitals (text : List Char) :
    Register.ofName? (text.map Char.toUpper) = Register.ofName? text := by
  match text with
  | [] | [_] | _ :: _ :: _ :: _ => rfl
  | [letter, digit] =>
      have mark : letter.toUpper = 'r' ∨ letter.toUpper = 'R' ↔ letter = 'r' ∨ letter = 'R' :=
        toUpper_cases (R := fun c d => d = 'r' ∨ d = 'R' ↔ c = 'r' ∨ c = 'R') (by decide)
          (fun _ _ => .rfl) letter
      have own : ('0' ≤ digit.toUpper ∧ digit.toUpper ≤ '7' ↔ '0' ≤ digit ∧ digit ≤ '7') ∧
          ('0' ≤ digit ∧ digit ≤ '7' → digit.toUpper = digit) :=
        toUpper_cases (R := fun c d => ('0' ≤ d ∧ d ≤ '7' ↔ '0' ≤ c ∧ c ≤ '7') ∧
          ('0' ≤ c ∧ c ≤ '7' → d = c)) (by decide) (by simp) digit
      simp only [List.map_cons, List.map_nil, Register.ofName?, mark, own.1]
      split
      · next named => rw [own.2 named.2]
      · rfl

theorem isLabel_capitals_iff : p.capitals.IsLabel ↔ p.IsLabel := by
  simp only [IsLabel, isName_capitals_iff]
  simp only [capitals, Mnemonic.ofName?, toUpper_map_toUpper, ofName?_capitals]

/-- The piece in capitals, but for a label or a string, which stays as it is written. -/
def fold (p : Piece) : Piece :=
  if p.IsLabel then p
  else
    match p.kind with
    | .stringLiteral _ => p
    | _ => p.capitals

theorem fold_cases (p : Piece) : p.fold = p ∨ ¬ p.IsLabel ∧ p.fold = p.capitals ∧
    ∀ terminated, p.kind ≠ .stringLiteral terminated := by
  unfold fold
  split
  · exact .inl rfl
  · next other =>
    split
    · exact .inl rfl
    · next plain => exact .inr ⟨other, rfl, plain⟩

end Piece

/-- A label in the operand is no mnemonic, as none is that a line defines. -/
def OperandValue.Definable (v : OperandValue) : Prop :=
  ∀ name, v = .datum (.label name) → Mnemonic.ofName? name = none

namespace Piece

/-- Two pieces say the same, as long as no operand names a mnemonic. -/
structure Alike (p q : Piece) : Prop where
  mnemonic : ∀ m, p.IsMnemonic m ↔ q.IsMnemonic m
  directive : ∀ d, p.IsDirective d ↔ q.IsDirective d
  word : ∀ w, p.IsWord w ↔ q.IsWord w
  string : ∀ characters, p.IsString characters ↔ q.IsString characters
  operand : ∀ v : OperandValue, v.Definable → (p.IsOperand v ↔ q.IsOperand v)

variable {p q r : Piece}

theorem Alike.refl (p : Piece) : p.Alike p :=
  ⟨fun _ => .rfl, fun _ => .rfl, fun _ => .rfl, fun _ => .rfl, fun _ _ => .rfl⟩

theorem Alike.symm (h : p.Alike q) : q.Alike p where
  mnemonic m := (h.mnemonic m).symm
  directive d := (h.directive d).symm
  word w := (h.word w).symm
  string characters := (h.string characters).symm
  operand v definable := (h.operand v definable).symm

theorem isLabel_of_isOperand {name : Label} (h : p.IsOperand (.datum (.label name)))
    (definable : OperandValue.Definable (.datum (.label name))) : p.IsLabel := by
  cases h with
  | label own other => exact ⟨own, definable _ rfl, other⟩

theorem isOperand_capitals_iff (other : ¬ p.IsLabel) {v : OperandValue} (definable : v.Definable) :
    p.capitals.IsOperand v ↔ p.IsOperand v := by
  match v with
  | .register r =>
      have own (q : Piece) : q.IsOperand (.register r) ↔
          q.IsName ∧ Register.ofName? q.text = some r :=
        ⟨fun h => by cases h with | register name named => exact ⟨name, named⟩,
          fun h => .register h.1 h.2⟩
      rw [own, own, isName_capitals_iff]
      simp only [capitals, ofName?_capitals]
  | .datum (.literal n) =>
      have own (q : Piece) : q.IsOperand (.datum (.literal n)) ↔ q.IsLiteral n :=
        ⟨fun h => by cases h with | literal number => exact number, .literal⟩
      rw [own, own, isLiteral_capitals_iff]
  | .datum (.label name) =>
      refine iff_of_false (fun h => other ?_) fun h => other (isLabel_of_isOperand h definable)
      exact isLabel_capitals_iff.mp (isLabel_of_isOperand h definable)

theorem alike_fold (p : Piece) : p.Alike p.fold := by
  rcases p.fold_cases with same | ⟨other, same, plain⟩
  · rw [same]
    exact .refl p
  · rw [same]
    constructor
    · exact fun m => isMnemonic_capitals_iff.symm
    · exact fun d => isDirective_capitals_iff.symm
    · intro w
      simp only [IsWord, isLiteral_capitals_iff]
    · exact fun characters => iff_of_false (fun h => plain _ h.1) fun h => plain _ h.1
    · exact fun v definable => (isOperand_capitals_iff other definable).symm

theorem isOperands_of_alike {pieces others : List Piece} {values : List OperandValue}
    (given : List.Forall₂ IsOperand pieces values) (definable : ∀ v ∈ values, v.Definable)
    (alike : List.Forall₂ Alike pieces others) : List.Forall₂ IsOperand others values := by
  induction given generalizing others with
  | nil =>
      cases alike
      exact .nil
  | cons own _ ih =>
      obtain ⟨first, definable⟩ := List.forall_mem_cons.mp definable
      cases alike with
      | cons same later => exact .cons ((same.operand _ first).mp own) (ih definable later)

end Piece

namespace Entry

variable {row row' : List Piece} {act : Act}

theorem Acts.of_alike (h : Acts Piece.IsDatum row act)
    (definable : ∀ v ∈ act.values, v.Definable) (alike : List.Forall₂ Piece.Alike row row') :
    Acts Piece.IsDatum row' act := by
  cases h with
  | nothing =>
      cases alike
      exact .nothing
  | @instruction p m pieces values head given =>
      obtain ⟨q, others, first, later, rfl⟩ := List.forall₂_cons_left_iff.mp alike
      exact .instruction ((first.mnemonic m).mp head)
        (Piece.isOperands_of_alike given definable later)
  | origin head given =>
      rcases alike with _ | ⟨first, _ | ⟨second, _ | _⟩⟩
      exact .origin ((first.directive _).mp head) ((second.word _).mp given)
  | stop head =>
      rcases alike with _ | ⟨first, _ | _⟩
      exact .stop ((first.directive _).mp head)
  | fill head given =>
      rcases alike with _ | ⟨first, _ | ⟨second, _ | _⟩⟩
      exact .fill ((first.directive _).mp head)
        ((second.operand _ (definable _ List.mem_cons_self)).mp given)
  | block head given =>
      rcases alike with _ | ⟨first, _ | ⟨second, _ | _⟩⟩
      exact .block ((first.directive _).mp head) ((second.word _).mp given)
  | string head given =>
      rcases alike with _ | ⟨first, _ | ⟨second, _ | _⟩⟩
      exact .string ((first.directive _).mp head) ((second.string _).mp given)

/-- In capitals a row says the same. -/
theorem acts_fold_iff (definable : ∀ v ∈ act.values, v.Definable) :
    Acts Piece.IsDatum (row.map Piece.fold) act ↔ Acts Piece.IsDatum row act := by
  have alike : List.Forall₂ Piece.Alike row (row.map Piece.fold) := by
    rw [List.forall₂_map_right_iff, List.forall₂_same]
    exact fun p _ => p.alike_fold
  exact ⟨fun h => h.of_alike definable (alike.flip.imp fun _ _ => .symm),
    fun h => h.of_alike definable alike⟩

end Entry

end LC3
