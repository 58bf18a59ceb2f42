import LC3.Proofs.Assembly.Grammar
import LC3.Proofs.Assembly.SecondPass
import LC3.Proofs.Source.Junctions
import LC3.Proofs.Source.LineFeeds

/-!
The spellings of an integer. A numeral has digits of its radix, with any zeros in front, and stands
bare, behind a number sign or behind a mark for hexadecimal. Each spelling is one token, and what is
read is the integer that its digits spell, whichever spelling it is; an integer out of bounds is
refused with itself, and one whose digits overflow as no numeral. Main statements:
`Spelling.reads`, `denoted_of_spelling`.
-/

namespace LC3
namespace Literal

/-- The texts that stand for an integer. -/
inductive Spelling : List Char → Int → Prop
  | bare {text n} (digits : Magnitude 10 text n) : Spelling text n
  | number {text n} (digits : Magnitude 10 text n) : Spelling ('#' :: text) n
  | numberPlus {text n} (digits : Magnitude 10 text n) : Spelling ('#' :: '+' :: text) n
  | numberMinus {text} {n : Nat} (digits : Magnitude 10 text n) :
      Spelling ('#' :: '-' :: text) (-n)
  | marked {mark text n} (mark_eq : mark = 'x' ∨ mark = 'X') (digits : Magnitude 16 text n) :
      Spelling (mark :: text) n
  | markedMinus {mark text} {n : Nat} (mark_eq : mark = 'x' ∨ mark = 'X')
      (digits : Magnitude 16 text n) : Spelling (mark :: '-' :: text) (-n)
  | zeroMarked {mark text n} (mark_eq : mark = 'x' ∨ mark = 'X') (digits : Magnitude 16 text n) :
      Spelling ('0' :: mark :: text) n

end Literal

/-- What a token says that spells an integer: itself, in 32 bits. -/
def Token.reading (t : Token) (v : Int) : Except Complaint Int :=
  if -0x80000000 ≤ v ∧ v ≤ 0x7FFFFFFF then .ok v
  else if v.natAbs < 0x8000000000000000 then .error ⟨t.span, .outOfRange .literal v .literals⟩
  else .error (t.complain (.invalidLiteral t.text Numeral.overflow))

namespace Numeral

variable {radix v : Nat} {text : List Char} {digits : List Nat}

/-- Digits whose value reaches the limit overflow, wherever they do. -/
theorem accumulate_eq_overflow (small : v < limit) (spelled : Spells radix text digits)
    (large : limit ≤ positional radix v digits) : accumulate radix v text = .error overflow := by
  induction spelled generalizing v with
  | nil => exact absurd small (Nat.not_lt.mpr large)
  | cons digit _ ih =>
      rw [accumulate, digit]
      dsimp only
      split
      · next below => exact ih below large
      · rfl

theorem value_of_spells (pos : 0 < radix) (some : text ≠ []) (spelled : Spells radix text digits) :
    value radix text = if positional radix 0 digits < limit then .ok (positional radix 0 digits)
      else .error overflow := by
  split
  · next small => exact (value_eq_ok_iff pos).mpr ⟨some, digits, spelled, rfl, small⟩
  · next large =>
    rw [value_of_ne_nil some]
    exact accumulate_eq_overflow (by decide) spelled (Nat.not_lt.mp large)

end Numeral

/-- A sign and digits are read as the integer that they are. -/
theorem Token.signedValue_of_signed {t : Token} {radix : Nat} {body : List Char} {v : Int}
    (pos : 0 < radix) (signed : Numeral.Signed radix body v) :
    t.signedValue radix body = t.reading v := by
  obtain ⟨some, digits, spelled, value⟩ := Numeral.signed_iff.mp signed
  simp only [signedValue, Numeral.value_of_spells pos some spelled]
  generalize Numeral.positional radix 0 digits = n at value
  have magnitude : v.natAbs = n := by split at value <;> omega
  have literal : v ∈ Interval.literals ↔ -0x80000000 ≤ v ∧ v ≤ 0x7FFFFFFF := Interval.mem_iff
  simp only [reading, magnitude]
  split
  · next n' same =>
    split at same
    · cases same
    · next large =>
      cases same
      rw [Numeral.limit] at large
      rw [if_neg (by omega), if_neg large]
  · next n' same =>
    split at same
    · next small =>
      cases same
      rw [Numeral.limit] at small
      simp only [← value, literal, small, if_true]
    · cases same

namespace Literal

variable {radix d n : Nat} {c mark : Char} {text after : List Char} {v : Int}

theorem IsDigit.sixteen (h : IsDigit 10 c d) : IsDigit 16 c d := ⟨by have := h.1; omega, h.2⟩

theorem IsDigit.isHexDigit (h : IsDigit 16 c d) : isHexDigit c = true := by
  rw [LC3.isHexDigit, h.digit? (by decide)]
  rfl

theorem IsDigit.isDigit (h : IsDigit 10 c d) : c.isDigit = true := by
  obtain ⟨small, same⟩ := h
  interval_cases d
  all_goals rcases same with rfl | rfl <;> rfl

namespace Magnitude

theorem sixteen (h : Magnitude 10 text n) : ∃ m, Magnitude 16 text m := by
  obtain ⟨some, digits, spelled, -⟩ := h
  exact ⟨_, some, digits, spelled.imp fun _ _ own => own.sixteen, rfl⟩

theorem spells (h : Magnitude radix text n) (usual : radix = 10 ∨ radix = 16) :
    text ≠ [] ∧ ∃ digits, Numeral.Spells radix text digits ∧
      n = Numeral.positional radix 0 digits :=
  (Numeral.magnitude_iff (by omega)).mp h

theorem bare (h : Magnitude radix text n) (usual : radix = 10 ∨ radix = 16) :
    Numeral.Signed radix text n := by
  obtain ⟨some, digits, spelled, rfl⟩ := h.spells usual
  exact .bare some spelled

theorem plus (h : Magnitude radix text n) (usual : radix = 10 ∨ radix = 16) :
    Numeral.Signed radix ('+' :: text) n := by
  obtain ⟨some, digits, spelled, rfl⟩ := h.spells usual
  exact .plus some spelled

theorem minus (h : Magnitude radix text n) (usual : radix = 10 ∨ radix = 16) :
    Numeral.Signed radix ('-' :: text) (-n) := by
  obtain ⟨some, digits, spelled, rfl⟩ := h.spells usual
  exact .minus some spelled

theorem isDigit (h : Magnitude 10 text n) : ∀ c ∈ text, c.isDigit = true := by
  obtain ⟨-, digits, spelled, -⟩ := h
  intro c member
  obtain ⟨d, -, own⟩ := Stage.exists_of_forall₂_left spelled member
  exact own.isDigit

theorem isHexDigit (h : Magnitude 16 text n) : ∀ c ∈ text, isHexDigit c = true := by
  obtain ⟨-, digits, spelled, -⟩ := h
  intro c member
  obtain ⟨d, -, own⟩ := Stage.exists_of_forall₂_left spelled member
  exact own.isHexDigit

theorem isNameChar (h : Magnitude 16 text n) : ∀ c ∈ text, isNameChar c = true :=
  fun c member => Lexeme.isNameChar_of_isHexDigit (h.isHexDigit c member)

/-- The digits and no more are the run of name characters in front of another character. -/
theorem run (h : Magnitude 16 text n) (ends : Lexeme.startsWith LC3.isNameChar after = false) :
    Lexeme.run LC3.isNameChar (text ++ after) = text.length := by
  rw [Lexeme.run_append ends, Lexeme.run_of_all h.isNameChar]

/-- Digits have no sign in front of them. -/
theorem signedRun (h : Magnitude 16 text n) {signs : Char → Bool}
    (apart : ∀ c, LC3.isNameChar c = true → signs c = false)
    (ends : Lexeme.startsWith LC3.isNameChar after = false) :
    Lexeme.signedRun signs (text ++ after) = text.length := by
  obtain ⟨c, more, rfl⟩ := List.exists_cons_of_ne_nil h.1
  have sign := apart c (h.isNameChar c List.mem_cons_self)
  rw [List.cons_append, Lexeme.signedRun, if_neg (by simp [sign]), ← List.cons_append, h.run ends]

end Magnitude
end Literal

namespace Lexeme

variable {c : Char} {text rest : List Char}

/-- No mark for hexadecimal comes behind a digit that goes on with digits. -/
theorem startsWith_mark_eq_false (digits : ∀ d ∈ text, d.isDigit = true)
    (ends : startsWith isNameChar rest = false) :
    startsWith (fun d => d == 'x' || d == 'X') (text ++ rest) = false := by
  by_contra mark
  rw [Bool.not_eq_false] at mark
  cases text with
  | nil =>
      cases rest with
      | nil => cases mark
      | cons d rest =>
          rw [List.nil_append, startsWith, Bool.or_eq_true, beq_iff_eq, beq_iff_eq] at mark
          rcases mark with rfl | rfl <;> cases ends
  | cons d text =>
      have digit := digits d List.mem_cons_self
      rw [List.cons_append, startsWith, Bool.or_eq_true, beq_iff_eq, beq_iff_eq] at mark
      rcases mark with rfl | rfl <;> cases digit

theorem of_isDigit (digit : c.isDigit = true)
    (other : startsWith (fun d => d == 'x' || d == 'X') rest = false) :
    of c rest = ⟨.decimalLiteral, run isNameChar rest⟩ := by
  have apart {d : Char} (none : d.isDigit = false) : c ≠ d := by
    rintro rfl
    rw [digit] at none
    cases none
  have blank : isSeparator c = false := by
    simp [isSeparator, apart (d := ' ') rfl, apart (d := '\t') rfl, apart (d := '\r') rfl,
      apart (d := ',') rfl]
  simp only [of, apart (d := ';') rfl, apart (d := '\n') rfl, blank, apart (d := ':') rfl,
    apart (d := 'x') rfl, apart (d := 'X') rfl, or_self, false_and, if_false, other,
    Bool.false_eq_true, and_false, digit, if_true]

theorem of_mark (mark : c = 'x' ∨ c = 'X')
    (next : startsWith (fun d => isHexDigit d || d == '-') rest = true) :
    of c rest = ⟨.hexLiteral, signedRun (· == '-') rest⟩ := by
  rcases mark with rfl | rfl <;> simp [of, next, isSeparator]

end Lexeme

namespace Literal

/-- The text is a numeral of this kind, wherever no name goes on behind it. -/
structure Reads (text : List Char) (v : Int) (kind : TokenKind) : Prop where
  numeric : kind = .hexLiteral ∨ kind = .decimalLiteral
  before : ∀ after, Lexeme.startsWith isNameChar after = false →
    (⟨kind, text⟩ : Piece).Before after
  role : ∀ t : Token, t.piece = ⟨kind, text⟩ → t.role = kind
  number : ∀ t : Token, t.piece = ⟨kind, text⟩ → t.number = t.reading v

variable {c mark : Char} {text body : List Char} {v : Int} {n : Nat}

theorem reads_decimal (signed : Numeral.Signed 10 body v) (drop : dropNumberSign text = body)
    (before : ∀ after, Lexeme.startsWith isNameChar after = false →
      (⟨.decimalLiteral, text⟩ : Piece).Before after) : Reads text v .decimalLiteral where
  numeric := .inr rfl
  before := before
  role := by
    rintro ⟨kind, start, text⟩ ⟨⟩
    rfl
  number := by
    rintro ⟨kind, start, text⟩ ⟨⟩
    rw [← drop] at signed
    exact Token.signedValue_of_signed (by decide) signed

theorem reads_hexadecimal (signed : Numeral.Signed 16 body v)
    (drop : Numeral.dropHexPrefix text = body) (shape : Token.isHexShapedName text = false)
    (before : ∀ after, Lexeme.startsWith isNameChar after = false →
      (⟨.hexLiteral, text⟩ : Piece).Before after) : Reads text v .hexLiteral where
  numeric := .inl rfl
  before := before
  role := by
    rintro ⟨kind, start, text⟩ ⟨⟩
    exact if_neg (by simp [shape])
  number := by
    rintro ⟨kind, start, text⟩ ⟨⟩
    rw [← drop] at signed
    exact Token.signedValue_of_signed (by decide) signed

theorem reads_bare (digits : Magnitude 10 text n) : Reads text n .decimalLiteral := by
  have signed := digits.bare (.inl rfl)
  obtain ⟨m, wide⟩ := digits.sixteen
  refine reads_decimal signed (Numeral.dropNumberSign_of_signed signed) fun after ends => ?_
  have all := digits.isDigit
  obtain ⟨c, more, rfl⟩ := List.exists_cons_of_ne_nil digits.1
  obtain ⟨first, all⟩ := List.forall_mem_cons.mp all
  refine ⟨c, more, rfl, ?_⟩
  rw [Lexeme.of_isDigit first (Lexeme.startsWith_mark_eq_false all ends), Lexeme.run_append ends,
    Lexeme.run_of_all fun e member => wide.isNameChar e (List.mem_cons_of_mem c member)]

theorem sign_of_isNameChar (c : Char) (name : isNameChar c = true) :
    (c == '-' || c == '+') = false := by
  by_contra sign
  rw [Bool.not_eq_false, Bool.or_eq_true, beq_iff_eq, beq_iff_eq] at sign
  rcases sign with rfl | rfl <;> cases name

theorem reads_number (digits : Magnitude 10 text n) : Reads ('#' :: text) n .decimalLiteral := by
  obtain ⟨m, wide⟩ := digits.sixteen
  refine reads_decimal (digits.bare (.inl rfl)) rfl fun after ends => ⟨'#', text, rfl, ?_⟩
  exact congrArg (Lexeme.mk _) (wide.signedRun sign_of_isNameChar ends)

/-- A number sign takes a sign along. -/
theorem before_signed (digits : Magnitude 10 text n) (sign : c = '-' ∨ c = '+') {after : List Char}
    (ends : Lexeme.startsWith isNameChar after = false) :
    (⟨.decimalLiteral, '#' :: c :: text⟩ : Piece).Before after := by
  obtain ⟨m, wide⟩ := digits.sixteen
  refine ⟨'#', c :: text, rfl, congrArg (Lexeme.mk _) ?_⟩
  rw [List.cons_append, Lexeme.signedRun, if_pos (by simpa using sign), wide.run ends,
    List.length_cons]

theorem shape_of_digits (digits : Magnitude 16 text n) :
    Token.isHexShapedName (mark :: text) = false := by
  have none : text.any (fun d => !isHexDigit d) = false := by
    simpa using digits.isHexDigit
  simp only [Token.isHexShapedName, none, Bool.and_false]

theorem dropHexPrefix_mark (mark_eq : mark = 'x' ∨ mark = 'X') (text : List Char) :
    Numeral.dropHexPrefix (mark :: text) = text := by
  rcases mark_eq with rfl | rfl <;> rfl

theorem reads_marked (mark_eq : mark = 'x' ∨ mark = 'X') (digits : Magnitude 16 text n) :
    Reads (mark :: text) n .hexLiteral := by
  refine reads_hexadecimal (digits.bare (.inr rfl)) (dropHexPrefix_mark mark_eq text)
    (shape_of_digits digits) fun after ends => ⟨mark, text, rfl, ?_⟩
  have next : Lexeme.startsWith (fun d => isHexDigit d || d == '-') (text ++ after) = true := by
    obtain ⟨c, more, rfl⟩ := List.exists_cons_of_ne_nil digits.1
    simp [Lexeme.startsWith, digits.isHexDigit c List.mem_cons_self]
  rw [Lexeme.of_mark mark_eq next, digits.signedRun (fun c name => ?_) ends]
  exact (Bool.or_eq_false_iff.mp (sign_of_isNameChar c name)).1

theorem reads_markedMinus (mark_eq : mark = 'x' ∨ mark = 'X') (digits : Magnitude 16 text n) :
    Reads (mark :: '-' :: text) (-n) .hexLiteral := by
  refine reads_hexadecimal (digits.minus (.inr rfl)) (dropHexPrefix_mark mark_eq _) ?_
    fun after ends => ⟨mark, '-' :: text, rfl, ?_⟩
  · have dash : isNameChar '-' = false := rfl
    simp [Token.isHexShapedName, dash]
  · rw [Lexeme.of_mark mark_eq rfl, List.cons_append, Lexeme.signedRun, if_pos (by decide),
      digits.run ends, List.length_cons]

theorem reads_zeroMarked (mark_eq : mark = 'x' ∨ mark = 'X') (digits : Magnitude 16 text n) :
    Reads ('0' :: mark :: text) n .hexLiteral := by
  refine reads_hexadecimal (digits.bare (.inr rfl)) ?_ rfl fun after ends =>
    ⟨'0', mark :: text, rfl, ?_⟩
  · rcases mark_eq with rfl | rfl <;> rfl
  · have names : ∀ c ∈ mark :: text, isNameChar c = true :=
      List.forall_mem_cons.mpr ⟨by rcases mark_eq with rfl | rfl <;> rfl, digits.isNameChar⟩
    have hex : Lexeme.of '0' (mark :: text ++ after) =
        ⟨.hexLiteral, Lexeme.run isNameChar (mark :: text ++ after)⟩ := by
      rcases mark_eq with rfl | rfl <;> rfl
    rw [hex, Lexeme.run_append ends, Lexeme.run_of_all names]

/-- Each spelling is a numeral, and it reads as what it spells. -/
theorem Spelling.reads (h : Spelling text v) : ∃ kind, Reads text v kind := by
  cases h with
  | bare digits => exact ⟨_, reads_bare digits⟩
  | number digits => exact ⟨_, reads_number digits⟩
  | numberPlus digits =>
      exact ⟨_, reads_decimal (digits.plus (.inl rfl)) rfl fun _ => before_signed digits (.inr rfl)⟩
  | numberMinus digits =>
      exact ⟨_, reads_decimal (digits.minus (.inl rfl)) rfl fun _ => before_signed digits (.inl rfl)⟩
  | marked mark_eq digits => exact ⟨_, reads_marked mark_eq digits⟩
  | markedMinus mark_eq digits => exact ⟨_, reads_markedMinus mark_eq digits⟩
  | zeroMarked mark_eq digits => exact ⟨_, reads_zeroMarked mark_eq digits⟩

end Literal

/-- The reading of a text has come to this token as an operand of a clause. -/
inductive Progress.Reaches : Progress → Clause → Token → Prop
  | instruction {d label head m before t after}
      (read : ∀ u ∈ before, ∃ o, Operand.ofToken u = .ok o) :
      Reaches (.within d) (.instruction label head m (before ++ t :: after)) t
  | origin {label head t} : Reaches .beforeOrigin (.directive label head .origin [t]) t
  | fill {d label head t} : Reaches (.within d) (.directive label head .fill [t]) t
  | block {d label head t} : Reaches (.within d) (.directive label head .block [t]) t

/-- The text between two others is one numeral, which denotes the integer. -/
structure Literal.Denoted (before text after : List Char) (v : Int) : Prop where
  /-- It begins a token behind a blank, a line feed or a colon, or at the start. -/
  begins : (∀ p ∈ (Piece.ofText before).getLast?, p.Separates) →
    ∃ t ∈ tokenize (before ++ text ++ after), t.start = byteLength before
  /-- The token that begins there is the whole of it, a number and no name. -/
  token : ∀ t ∈ tokenize (before ++ text ++ after), t.start = byteLength before →
    t.text = text ∧ (t.kind = .hexLiteral ∨ t.kind = .decimalLiteral) ∧ t.role = t.kind
  /-- As an operand it is the integer, or what is wrong with the integer. -/
  operand : ∀ t ∈ tokenize (before ++ text ++ after), t.start = byteLength before →
    t.number = t.reading v ∧
      Operand.ofToken t = (t.reading v).map fun n => ⟨.datum (.literal n), t.span⟩
  /-- Where it is the first operand that is wrong, the source is refused for it. -/
  refused : ∀ t ∈ tokenize (before ++ text ++ after), t.start = byteLength before →
    ∀ lines line later p clause c, Line.ofText (before ++ text ++ after) = lines ++ line :: later →
      lines.foldlM Progress.readLine .beforeOrigin = .ok p →
      Clause.ofTokens line.tokens = .ok clause → p.Reaches clause t → t.reading v = .error c →
        assemble (before ++ text ++ after) = .error (c.onLine line.number)

section
variable {t : Token} {c : Complaint} {v : Int}

theorem Operand.ofToken_of_numeric (numeric : t.role = .hexLiteral ∨ t.role = .decimalLiteral) :
    ofToken t = t.number.map fun n => ⟨.datum (.literal n), t.span⟩ := by
  rcases numeric with role | role <;> simp only [ofToken, role]

/-- An operand that is no number in bounds is what is wrong with its clause. -/
theorem Progress.Reaches.readClause {p : Progress} {clause : Clause} (h : p.Reaches clause t)
    (numeric : t.role = .hexLiteral ∨ t.role = .decimalLiteral) (refused : t.number = .error c)
    (number : Nat) : p.readClause number clause = .error c := by
  have operand : Operand.ofToken t = .error c := by
    rw [Operand.ofToken_of_numeric numeric, refused]
    rfl
  have word (q : Quantity) : t.unsignedWord q = .error c :=
    Stage.bind_eq_error.mpr (.inl refused)
  cases h with
  | @instruction d label head m before t after read =>
      have operands : (before ++ t :: after).mapM Operand.ofToken = .error c :=
        Stage.mapM_eq_error_iff.mpr ⟨before, t, after, rfl, read, operand⟩
      exact Stage.bind_eq_error.mpr (.inr ⟨d, rfl, Stage.bind_eq_error.mpr (.inl operands)⟩)
  | origin => exact Stage.bind_eq_error.mpr (.inr ⟨t, rfl, Stage.bind_eq_error.mpr (.inl (word _))⟩)
  | @fill d label head t =>
      have datum : Clause.fillDatum t = .error c := Stage.bind_eq_error.mpr (.inl operand)
      exact Stage.bind_eq_error.mpr (.inr ⟨d, rfl, Stage.bind_eq_error.mpr
        (.inr ⟨t, rfl, Stage.bind_eq_error.mpr (.inl datum)⟩)⟩)
  | @block d label head t =>
      have count : Clause.blockCount t = .error c := (if_pos numeric).trans (word .block)
      exact Stage.bind_eq_error.mpr (.inr ⟨d, rfl, Stage.bind_eq_error.mpr
        (.inr ⟨t, rfl, Stage.bind_eq_error.mpr (.inl count)⟩)⟩)

theorem Progress.Reaches.readLine {p : Progress} {line : Line} {clause : Clause}
    (h : p.Reaches clause t) (parsed : Clause.ofTokens line.tokens = .ok clause)
    (refused : p.readClause line.number clause = .error c) :
    p.readLine line = .error (c.onLine line.number) := by
  cases h <;> simp only [Progress.readLine, parsed, Except.bind, refused, Except.mapError]

end

/-- Whatever the spelling of an integer and wherever it stands as a token, it denotes the integer. -/
theorem denoted_of_spelling (before text after : List Char) (v : Int)
    (spelling : Literal.Spelling text v)
    (ends : Lexeme.startsWith isNameChar after = false) :
    Literal.Denoted before text after v := by
  obtain ⟨kind, reads⟩ := spelling.reads
  have own := reads.before after ends
  have piece : ∀ t ∈ tokenize (before ++ text ++ after), t.start = byteLength before →
      t.piece = ⟨kind, text⟩ := by
    intro t member start
    obtain ⟨front, behind, source, place, token⟩ := exists_of_mem_tokenize member
    rw [List.append_assoc, List.append_assoc] at source
    obtain ⟨-, same⟩ := append_eq_append_of_byteLength_eq source (start.symm.trans place)
    exact token.unique own same.symm
  refine ⟨fun separates => ?_, fun t member start => ?_, fun t member start => ?_, ?_⟩
  · have blank : Lexeme.startsWith isSeparator (text ++ after) = false :=
      own.startsWith_isSeparator (by rcases reads.numeric with rfl | rfl <;> rfl) after
    have cut : Piece.Cut [] (Piece.ofText before ++ ⟨kind, text⟩ :: Piece.ofText after) := by
      refine Piece.cut_append.mpr ⟨?_, ?_, Piece.cut_ofText after⟩
      · simpa using Piece.cut_of_separates separates blank
      · simpa using own
    have tokens := Piece.tokens_join cut 0
    have whole : Piece.join (Piece.ofText before ++ ⟨kind, text⟩ :: Piece.ofText after) =
        before ++ text ++ after := by simp
    rw [whole] at tokens
    refine ⟨⟨kind, byteLength before, text⟩, ?_, rfl⟩
    have listed : tokenize (before ++ text ++ after) = _ := tokens
    rw [listed, Piece.place_append]
    simp [Piece.place]
  · obtain ⟨same, text⟩ := Piece.mk.inj (piece t member start)
    have role := reads.role t (piece t member start)
    exact ⟨text, same ▸ reads.numeric, role.trans same.symm⟩
  · have role := reads.role t (piece t member start)
    have number := reads.number t (piece t member start)
    exact ⟨number, by rw [Operand.ofToken_of_numeric (role ▸ reads.numeric), number]⟩
  · intro t member start lines line later p clause c split read parsed reaches refused
    have role := reads.role t (piece t member start)
    have number := reads.number t (piece t member start)
    have stop := reaches.readLine parsed
      (reaches.readClause (role ▸ reads.numeric) (number.trans refused) line.number)
    refine assemble_eq_error_of_foldlM ?_
    rw [split, List.foldlM_append, read, Stage.ok_bind, List.foldlM_cons, stop]
    rfl

/-- A number with a sign, zeros in front and a letter in lower case. -/
theorem denoted_minus_thirty_one :
    Literal.Spelling "x-001f".toList (-31) ∧
      Lexeme.startsWith isNameChar "\n.END".toList = false ∧
        Literal.Denoted ".ORIG x3000\nADD R0, R0, ".toList "x-001f".toList "\n.END".toList (-31) ∧
          ∃ t ∈ tokenize ".ORIG x3000\nADD R0, R0, x-001f\n.END".toList, t.start = 24 := by
  have digits : Literal.Magnitude 16 "001f".toList 31 :=
    ⟨by decide, [0, 0, 1, 15], .cons (by decide) (.cons (by decide) (.cons (by decide)
      (.cons (by decide) .nil))), by decide⟩
  have spelling : Literal.Spelling "x-001f".toList (-31) := .markedMinus (.inl rfl) digits
  have denoted := denoted_of_spelling ".ORIG x3000\nADD R0, R0, ".toList "x-001f".toList
    "\n.END".toList (-31) spelling rfl
  exact ⟨spelling, rfl, denoted, denoted.begins (by decide)⟩

end LC3
