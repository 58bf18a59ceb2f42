import LC3.Proofs.Assembly.Reading
import LC3.Proofs.Source.Rows
import LC3.Proofs.Word.Digits

/-!
The grammar of assembly source, stated over the pieces of a line. A row has an optional label and
then nothing, an instruction or a directive, and says one entry. What the first pass makes of a token
depends on its piece alone. Main statements: `number_eq_ok_iff`, `ofToken_eq_ok_iff`,
`characters_eq_ok_iff`.
-/

namespace LC3

namespace Numeral

/-- Digits behind a sign, which may be left out, and the value of both. -/
inductive Signed (radix : Nat) : List Char → Int → Prop
  | bare {text digits} (some : text ≠ []) (spelled : Spells radix text digits) :
      Signed radix text (positional radix 0 digits : Nat)
  | plus {text digits} (some : text ≠ []) (spelled : Spells radix text digits) :
      Signed radix ('+' :: text) (positional radix 0 digits : Nat)
  | minus {text digits} (some : text ≠ []) (spelled : Spells radix text digits) :
      Signed radix ('-' :: text) (-(positional radix 0 digits : Nat))

end Numeral

namespace Piece

/-- A name that starts as a hexadecimal literal does and has a character that is no such digit. -/
def IsHexShaped (text : List Char) : Prop :=
  ∃ mark rest, text = mark :: rest ∧ (mark = 'x' ∨ mark = 'X') ∧
    (∀ c ∈ rest, isNameChar c = true) ∧ ∃ c ∈ rest, isHexDigit c = false

def IsName (p : Piece) : Prop :=
  p.kind = .identifier ∨ p.kind = .hexLiteral ∧ IsHexShaped p.text

def IsLabel (p : Piece) : Prop :=
  p.IsName ∧ Mnemonic.ofName? p.text = none ∧ Register.ofName? p.text = none

def IsMnemonic (p : Piece) (m : Mnemonic) : Prop := p.IsName ∧ Mnemonic.ofName? p.text = some m

def IsDirective (p : Piece) (d : Directive) : Prop :=
  p.kind = .directive ∧ Directive.ofName? p.text = some d

instance (p : Piece) (d : Directive) : Decidable (p.IsDirective d) :=
  inferInstanceAs (Decidable (_ ∧ _))

/-- A 32-bit number, with a mark for its radix or without. -/
inductive IsLiteral : Piece → Int → Prop
  | hexadecimal {mark body v} (marked : mark ∈ [[], ['x'], ['X'], ['0', 'x'], ['0', 'X']])
      (signed : Numeral.Signed 16 body v) (within : -0x80000000 ≤ v ∧ v ≤ 0x7FFFFFFF) :
      IsLiteral ⟨.hexLiteral, mark ++ body⟩ v
  | decimal {mark body v} (marked : mark ∈ [[], ['#']]) (signed : Numeral.Signed 10 body v)
      (within : -0x80000000 ≤ v ∧ v ≤ 0x7FFFFFFF) : IsLiteral ⟨.decimalLiteral, mark ++ body⟩ v

/-- A name or a number; a name is a register or else a label. -/
inductive IsOperand : Piece → OperandValue → Prop
  | register {p r} (name : p.IsName) (named : Register.ofName? p.text = some r) :
      IsOperand p (.register r)
  | label {p} (name : p.IsName) (other : Register.ofName? p.text = none) :
      IsOperand p (.datum (.label p.text))
  | literal {p v} (number : p.IsLiteral v) : IsOperand p (.datum (.literal v))

/-- A number that is a word read unsigned. -/
def IsWord (p : Piece) (w : Word) : Prop :=
  ∃ v, p.IsLiteral v ∧ (0 ≤ v ∧ v ≤ 0xFFFF) ∧ w = BitVec.ofInt 16 v

/-- A string literal with its quotes, whose characters are words once escapes are resolved. -/
def IsString (p : Piece) (characters : List Word) : Prop :=
  p.kind = .stringLiteral true ∧ ∃ body, p.text = '"' :: (body ++ ['"']) ∧
    (∀ c ∈ Literal.unescape body, c.toNat ≤ 0xFFFF) ∧
      characters = (Literal.unescape body).map fun c => BitVec.ofNat 16 c.toNat

end Piece

namespace Numeral

variable {radix : Nat} {text : List Char} {v : Int} {digits : List Nat}

theorem digit?_of_lt {c : Char} (low : c < '0') : digit? radix c = none := by
  have digit : ¬ '0' ≤ c := not_le.mpr low
  have lower : ¬ 'a' ≤ c := not_le.mpr (low.trans (by decide))
  have upper : ¬ 'A' ≤ c := not_le.mpr (low.trans (by decide))
  simp [digit?, digit, lower, upper]

/-- A text that starts with a digit has no sign. -/
theorem splitSign_of_spells (spelled : Spells radix text digits) :
    Literal.splitSign text = (false, text) := by
  unfold Literal.splitSign
  split
  · exact absurd spelled (not_spells_cons (digit?_of_lt (by decide)))
  · exact absurd spelled (not_spells_cons (digit?_of_lt (by decide)))
  · rfl

theorem signed_iff : Signed radix text v ↔ (Literal.splitSign text).2 ≠ [] ∧
    ∃ digits, Spells radix (Literal.splitSign text).2 digits ∧
      v = if (Literal.splitSign text).1 then -(positional radix 0 digits : Int)
        else positional radix 0 digits := by
  constructor
  · rintro (⟨some, spelled⟩ | ⟨some, spelled⟩ | ⟨some, spelled⟩)
    · rw [splitSign_of_spells spelled]
      exact ⟨some, _, spelled, rfl⟩
    · exact ⟨some, _, spelled, rfl⟩
    · exact ⟨some, _, spelled, rfl⟩
  · unfold Literal.splitSign
    split
    · rintro ⟨some, digits, spelled, rfl⟩
      exact .minus some spelled
    · rintro ⟨some, digits, spelled, rfl⟩
      exact .plus some spelled
    · rintro ⟨some, digits, spelled, rfl⟩
      exact .bare some spelled

end Numeral

namespace Token

variable {t : Token} {radix : Nat} {body : List Char} {v : Int}

theorem signedValue_eq_ok : t.signedValue radix body = .ok v ↔
    ∃ n : Nat, Numeral.value radix (Literal.splitSign body).2 = .ok n ∧
      v = (if (Literal.splitSign body).1 then -(n : Int) else n) ∧ v ∈ Interval.literals := by
  simp only [signedValue]
  cases Numeral.value radix (Literal.splitSign body).2 with
  | error cause => simp
  | ok n =>
      simp only [Except.ok.injEq, exists_eq_left', eq_comm (a := v)]
      generalize (if (Literal.splitSign body).1 = true then -(n : Int) else n) = w
      split
      · next within =>
        rw [Except.ok.injEq, iff_self_and]
        rintro rfl
        exact within
      · next outside =>
        simp only [reduceCtorEq, false_iff, not_and]
        rintro rfl
        exact outside

theorem signedValue_eq_ok_iff (pos : 0 < radix) : t.signedValue radix body = .ok v ↔
    Numeral.Signed radix body v ∧ v ∈ Interval.literals := by
  rw [signedValue_eq_ok, Numeral.signed_iff]
  simp only [Numeral.value_eq_ok_iff pos]
  constructor
  · rintro ⟨_, ⟨some, digits, spelled, rfl, -⟩, value, within⟩
    exact ⟨⟨some, digits, spelled, value⟩, within⟩
  · rintro ⟨⟨some, digits, spelled, rfl⟩, within⟩
    refine ⟨_, ⟨some, digits, spelled, rfl, ?_⟩, rfl, within⟩
    simp only [Interval.mem_iff, Interval.literals] at within
    rw [Numeral.limit]
    split at within
    · omega
    · omega

end Token

namespace Numeral

variable {text : List Char} {v : Int}

/-- A number in hexadecimal starts with no mark. -/
theorem dropHexPrefix_of_signed (signed : Signed 16 text v) : dropHexPrefix text = text := by
  rcases signed with ⟨-, spelled⟩ | _ | _
  · exact dropHexPrefix_of_spells spelled
  · rfl
  · rfl

theorem dropNumberSign_of_signed (signed : Signed 10 text v) :
    Literal.dropNumberSign text = text := by
  unfold Literal.dropNumberSign
  split
  · rcases signed with ⟨-, spelled⟩ | _ | _
    exact absurd spelled (not_spells_cons rfl)
  · rfl

theorem exists_decimalMark (text : List Char) :
    ∃ mark ∈ [[], ['#']], text = mark ++ Literal.dropNumberSign text := by
  unfold Literal.dropNumberSign
  split
  · exact ⟨['#'], by simp, rfl⟩
  · exact ⟨[], by simp, rfl⟩

end Numeral

namespace Token

variable {t : Token} {v : Int} {w : Word}

/-- A token is read as a number where its piece is a literal of this value. -/
theorem number_eq_ok_iff : t.number = .ok v ↔ t.piece.IsLiteral v := by
  obtain ⟨kind, start, text⟩ := t
  constructor
  · intro h
    cases kind with
    | hexLiteral =>
        obtain ⟨signed, within⟩ := (signedValue_eq_ok_iff (by decide)).mp h
        obtain ⟨mark, marked, whole⟩ := Numeral.exists_hexMark text
        rw [piece, whole]
        exact .hexadecimal marked signed within
    | decimalLiteral =>
        obtain ⟨signed, within⟩ := (signedValue_eq_ok_iff (by decide)).mp h
        obtain ⟨mark, marked, whole⟩ := Numeral.exists_decimalMark text
        rw [piece, whole]
        exact .decimal marked signed within
    | _ => cases h
  · intro h
    generalize same : piece ⟨kind, start, text⟩ = p at h
    cases h with
    | @hexadecimal mark body v marked signed within =>
        obtain ⟨rfl, rfl⟩ := Piece.mk.inj same
        have bare : Numeral.dropHexPrefix (mark ++ body) = body :=
          Numeral.dropHexPrefix_append marked (Numeral.dropHexPrefix_of_signed signed)
        exact (signedValue_eq_ok_iff (by decide)).mpr ⟨bare.symm ▸ signed, within⟩
    | @decimal mark body v marked signed within =>
        obtain ⟨rfl, rfl⟩ := Piece.mk.inj same
        have bare : Literal.dropNumberSign (mark ++ body) = body := by
          simp only [List.mem_cons, List.not_mem_nil, or_false] at marked
          rcases marked with rfl | rfl
          · exact Numeral.dropNumberSign_of_signed signed
          · rfl
        exact (signedValue_eq_ok_iff (by decide)).mpr ⟨bare.symm ▸ signed, within⟩

theorem unsignedWord_eq_ok_iff {q : Quantity} : t.unsignedWord q = .ok w ↔ t.piece.IsWord w := by
  simp only [unsignedWord, Stage.bind_eq_ok, number_eq_ok_iff]
  refine exists_congr fun v => and_congr_right fun _ => ?_
  rw [← show v ∈ Interval.words ↔ 0 ≤ v ∧ v ≤ 0xFFFF from Interval.mem_iff]
  split
  · next within => simp [within, pure, Except.pure, eq_comm]
  · next outside => simp [outside, throw, throwThe, MonadExceptOf.throw]

theorem isHexShapedName_iff {text : List Char} :
    isHexShapedName text = true ↔ Piece.IsHexShaped text := by
  cases text with
  | nil => simp [isHexShapedName, Piece.IsHexShaped]
  | cons mark rest => simp [isHexShapedName, Piece.IsHexShaped, and_assoc]

theorem role_eq_identifier_iff : t.role = .identifier ↔ t.piece.IsName := by
  obtain ⟨kind, start, text⟩ := t
  cases kind with
  | hexLiteral =>
      simp only [role, Piece.IsName, piece, reduceCtorEq, false_or, true_and,
        ← isHexShapedName_iff]
      split <;> simp_all
  | _ => simp [role, Piece.IsName, piece]

theorem role_eq_directive_iff : t.role = .directive ↔ t.kind = .directive := by
  obtain ⟨kind, start, text⟩ := t
  cases kind with
  | hexLiteral =>
      simp only [role]
      split <;> simp
  | _ => simp [role]

end Token

theorem Numeral.isHexDigit_of_spells {text : List Char} {digits : List Nat}
    (spelled : Spells 16 text digits) : ∀ c ∈ text, isHexDigit c = true := by
  intro c member
  obtain ⟨d, -, digit⟩ := Stage.exists_of_forall₂_left spelled member
  rw [isHexDigit, digit]
  rfl

/-- A literal is no name, since what has the shape of a name has a character that is no digit. -/
theorem Piece.IsLiteral.not_isName {p : Piece} {v : Int} (h : p.IsLiteral v) : ¬ p.IsName := by
  rintro (kind | ⟨kind, mark', rest, whole, start, names, c, member, other⟩)
  · cases h <;> cases kind
  · cases h with
    | @hexadecimal mark body v marked signed =>
        have all : ∀ c ∈ body, isNameChar c = true → isHexDigit c = true := by
          rcases signed with ⟨-, spelled⟩ | ⟨-, spelled⟩ | ⟨-, spelled⟩
          · exact fun c member _ => Numeral.isHexDigit_of_spells spelled c member
          · refine List.forall_mem_cons.mpr ⟨nofun, fun c member _ => ?_⟩
            exact Numeral.isHexDigit_of_spells spelled c member
          · refine List.forall_mem_cons.mpr ⟨nofun, fun c member _ => ?_⟩
            exact Numeral.isHexDigit_of_spells spelled c member
        have apart {d : Char} (inside : d ∈ body) (name : isNameChar d = true)
            (none : isHexDigit d = false) : False := by
          rw [all d inside name] at none
          cases none
        simp only [List.mem_cons, List.not_mem_nil, or_false] at marked
        rcases marked with rfl | rfl | rfl | rfl | rfl
        · obtain rfl : body = mark' :: rest := whole
          rcases start with rfl | rfl
          · exact apart List.mem_cons_self rfl rfl
          · exact apart List.mem_cons_self rfl rfl
        · obtain ⟨-, rfl⟩ := List.cons.inj whole
          exact apart member (names c member) other
        · obtain ⟨-, rfl⟩ := List.cons.inj whole
          exact apart member (names c member) other
        · obtain ⟨rfl, -⟩ := List.cons.inj whole
          exact absurd start (by decide)
        · obtain ⟨rfl, -⟩ := List.cons.inj whole
          exact absurd start (by decide)
    | decimal => cases kind

namespace Token

variable {t : Token} {o : Operand} {operands : List Operand} {tokens : List Token} {w : Word}

theorem role_of_isLiteral {v : Int} (h : t.piece.IsLiteral v) :
    t.role = .hexLiteral ∨ t.role = .decimalLiteral := by
  have other := h.not_isName
  rw [← role_eq_identifier_iff] at other
  obtain ⟨kind, start, text⟩ := t
  cases kind with
  | hexLiteral =>
      simp only [role] at other ⊢
      split at other
      · exact absurd rfl other
      · next shape => exact .inl (if_neg shape)
  | decimalLiteral => exact .inr rfl
  | _ => cases h

/-- A token is an operand where its piece is one. -/
theorem ofToken_eq_ok_iff :
    Operand.ofToken t = .ok o ↔ t.piece.IsOperand o.value ∧ o.span = t.span := by
  obtain ⟨value, span⟩ := o
  constructor
  · intro h
    unfold Operand.ofToken at h
    split at h
    · next name =>
      split at h
      · next r named => cases h; exact ⟨.register (role_eq_identifier_iff.mp name) named, rfl⟩
      · next other => cases h; exact ⟨.label (role_eq_identifier_iff.mp name) other, rfl⟩
    · obtain ⟨v, number, same⟩ := Stage.map_eq_ok.mp h
      cases same
      exact ⟨.literal (number_eq_ok_iff.mp number), rfl⟩
    · obtain ⟨v, number, same⟩ := Stage.map_eq_ok.mp h
      cases same
      exact ⟨.literal (number_eq_ok_iff.mp number), rfl⟩
    · cases h
    · cases h
  · rintro ⟨h, same⟩
    dsimp only at h same
    subst same
    unfold Operand.ofToken
    cases h with
    | register name named =>
        have named : Register.ofName? t.text = _ := named
        simp only [role_eq_identifier_iff.mpr name, named]
    | label name other =>
        have other : Register.ofName? t.text = _ := other
        simp only [role_eq_identifier_iff.mpr name, other]
        rfl
    | literal number =>
        have read := number_eq_ok_iff.mpr number
        rcases role_of_isLiteral number with role | role
        · simp only [role, read, Except.map]
        · simp only [role, read, Except.map]

theorem mapM_ofToken_eq_ok_iff {values : List OperandValue} :
    (∃ operands, tokens.mapM Operand.ofToken = .ok operands ∧
      operands.map Operand.value = values) ↔
      List.Forall₂ Piece.IsOperand (tokens.map piece) values := by
  rw [List.forall₂_map_left_iff]
  constructor
  · rintro ⟨operands, read, rfl⟩
    rw [List.forall₂_map_right_iff]
    exact (Stage.mapM_eq_ok_iff.mp read).imp fun _ _ own => (ofToken_eq_ok_iff.mp own).1
  · intro h
    refine ⟨List.zipWith (fun t v => ⟨v, t.span⟩) tokens values, Stage.mapM_eq_ok_iff.mpr ?_, ?_⟩
    · induction h with
      | nil => exact .nil
      | cons first _ ih => exact .cons (ofToken_eq_ok_iff.mpr ⟨first, rfl⟩) ih
    · induction h with
      | nil => rfl
      | cons _ _ ih => exact congrArg _ ih

theorem fillDatum_eq_ok_iff {d : Datum} :
    Clause.fillDatum t = .ok d ↔ t.piece.IsOperand (.datum d) := by
  simp only [Clause.fillDatum, Stage.bind_eq_ok, ofToken_eq_ok_iff]
  constructor
  · rintro ⟨⟨value, span⟩, ⟨given, -⟩, read⟩
    cases value with
    | register r => cases read
    | datum d' => cases read; exact given
  · intro given
    exact ⟨⟨.datum d, t.span⟩, ⟨given, rfl⟩, rfl⟩

theorem blockCount_eq_ok_iff : Clause.blockCount t = .ok w ↔ t.piece.IsWord w := by
  unfold Clause.blockCount
  split
  · exact unsignedWord_eq_ok_iff
  · next other =>
    simp only [reduceCtorEq, false_iff]
    rintro ⟨v, number, -⟩
    exact other (role_of_isLiteral number)

theorem quotedBody?_eq_some_iff {text body : List Char} :
    Literal.quotedBody? text = some body ↔ text = '"' :: (body ++ ['"']) := by
  unfold Literal.quotedBody?
  split
  · next rest =>
    simp only [List.cons.injEq, true_and]
    split
    · next last =>
      obtain ⟨init, rfl⟩ := List.getLast?_eq_some_iff.mp last
      simp
    · next other =>
      simp only [reduceCtorEq, false_iff]
      rintro rfl
      simp at other
  · next other =>
    simp only [reduceCtorEq, false_iff]
    rintro rfl
    exact other _ rfl

theorem mapM_character_eq_ok_iff {text : List Char} {characters : List Word} :
    text.mapM t.character = .ok characters ↔ (∀ c ∈ text, c.toNat ≤ 0xFFFF) ∧
      characters = text.map fun c => BitVec.ofNat 16 c.toNat := by
  rw [Stage.mapM_eq_ok_iff]
  induction text generalizing characters with
  | nil => simp
  | cons c rest ih =>
      simp only [List.forall₂_cons_left_iff, ih, List.forall_mem_cons, List.map_cons]
      constructor
      · rintro ⟨w, others, own, ⟨all, rfl⟩, rfl⟩
        unfold character at own
        split at own
        · next small => cases own; exact ⟨⟨small, all⟩, rfl⟩
        · cases own
      · rintro ⟨⟨small, all⟩, rfl⟩
        exact ⟨_, _, if_pos small, ⟨all, rfl⟩, rfl⟩

theorem characters_eq_ok_iff {characters : List Word} :
    t.characters = .ok characters ↔ t.piece.IsString characters := by
  unfold Token.characters Piece.IsString
  split
  · next kind => simp [piece, kind]
  · next kind =>
    have kind : t.piece.kind = .stringLiteral true := kind
    simp only [kind, true_and]
    split
    · next body quoted =>
      rw [mapM_character_eq_ok_iff]
      have whole := quotedBody?_eq_some_iff.mp quoted
      constructor
      · intro h
        exact ⟨body, whole, h⟩
      · rintro ⟨other, same, h⟩
        have quoted' := quotedBody?_eq_some_iff.mpr same
        obtain rfl := Option.some.inj (quoted.symm.trans quoted')
        exact h
    · next none =>
      simp only [reduceCtorEq, false_iff]
      rintro ⟨body, whole, -⟩
      have some : Literal.quotedBody? t.text = some body := quotedBody?_eq_some_iff.mpr whole
      rw [some] at none
      cases none
  · next other =>
    simp only [reduceCtorEq, false_iff]
    rintro ⟨kind, -⟩
    exact other kind

end Token
end LC3
