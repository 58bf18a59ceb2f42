import LC3.Proofs.Assembly.Blame

/-!
The words of string literals. What the lexer takes for a closed literal is resolved unit by unit by
the parser, which finds nothing wrong with its form, and these characters and a zero are what a
STRINGZ puts into memory. Main statements: `spelled_of_mem_tokenize`, `readLine_string_eq_ok_iff`,
`escapesAgree`.
-/

namespace LC3

/-- The words of the characters that a row of units stands for. -/
def Literal.words (atoms : List Atom) : List Word :=
  (meaning atoms).map fun c => BitVec.ofNat 16 c.toNat

/-- The text of a closed literal is that of these units and no others, between two quotes, and its
escapes are resolved one unit after the other. -/
structure Token.Spelled (t : Token) (atoms : List Literal.Atom) : Prop where
  text : t.text = '"' :: (Literal.write atoms ++ ['"'])
  unique : ∀ others, t.text = '"' :: (Literal.write others ++ ['"']) → others = atoms
  ends : 2 ≤ t.text.length ∧ t.text.head? = some '"' ∧ t.text.getLast? = some '"'
  body : Literal.quotedBody? t.text = some (Literal.write atoms)
  unescape : Literal.unescape (Literal.write atoms) = Literal.meaning atoms
  /-- No backslash is left over at the end. -/
  strict : Literal.unescape? (Literal.write atoms) =
    some (Literal.unescape (Literal.write atoms))

namespace Token

variable {t : Token} {atoms : List Literal.Atom} {source : List Char}

theorem spelled_of_text (text : t.text = '"' :: (Literal.write atoms ++ ['"'])) :
    t.Spelled atoms := by
  have strict := Literal.unescape?_write atoms
  have unescape := Literal.unescape_eq_of_unescape? strict
  refine ⟨text, ?_, ?_, quotedBody?_eq_some_iff.mpr text, unescape, unescape.symm ▸ strict⟩
  · intro others other
    have same := (List.cons.inj (other.symm.trans text)).2
    exact Literal.write_injective (List.append_cancel_right same)
  · rw [text]
    refine ⟨?_, rfl, ?_⟩
    · rw [List.length_cons, List.length_append, List.length_singleton]
      omega
    · rw [← List.cons_append, List.getLast?_concat]

theorem spelled_of_mem_tokenize (member : t ∈ tokenize source)
    (closed : t.kind = .stringLiteral true) : ∃ atoms, t.Spelled atoms := by
  obtain ⟨atoms, text⟩ := exists_atoms_of_mem_tokenize member closed
  exact ⟨atoms, spelled_of_text text⟩

/-- The characters of a closed literal are what its units stand for, if all of them are words. -/
theorem Spelled.characters_eq_ok_iff (h : t.Spelled atoms) (closed : t.kind = .stringLiteral true)
    {characters : List Word} : t.characters = .ok characters ↔
      (∀ c ∈ Literal.meaning atoms, c.toNat ≤ 0xFFFF) ∧ characters = Literal.words atoms := by
  have read : t.characters = (Literal.meaning atoms).mapM t.character := by
    simp only [Token.characters, closed, h.body, h.unescape]
  rw [read]
  exact mapM_character_eq_ok_iff

end Token

/-- The draft with these characters and a zero at its end. -/
def Draft.pushString (d : Draft) (line : Nat) (head : Token) (characters : List Word) : Draft :=
  { d with
    counter := d.counter + (characters.length + 1)
    statements := d.statements.push
      ⟨line, BitVec.ofNat 16 d.counter, head.span, .string characters⟩ }

theorem Draft.push_string_eq_ok_iff {d d' : Draft} {line : Nat} {head : Token}
    {characters : List Word} : d.push line head (.string characters) = .ok d' ↔
      d.counter + characters.length + 1 ≤ 0x10000 ∧ d' = d.pushString line head characters := by
  have size : (Content.string characters).size = characters.length + 1 := rfl
  rw [push_eq_ok_iff, size, pushString]
  constructor
  · rintro ⟨-, fits, same⟩
    exact ⟨by omega, same⟩
  · rintro ⟨fits, same⟩
    exact ⟨by omega, by omega, same⟩

/-- A line with a STRINGZ of a closed literal is read exactly if its label can be defined, all its
characters are words and there is room for them and a zero. -/
theorem Progress.readLine_string_eq_ok_iff {d : Draft} {p : Progress} {line : Line}
    {label : Option Token} {head t : Token} {atoms : List Literal.Atom}
    (parsed : Clause.ofTokens line.tokens = .ok (.directive label head .string [t]))
    (closed : t.kind = .stringLiteral true) (spelled : t.Spelled atoms) :
    (within d).readLine line = .ok p ↔ ∃ d', d.defineSome label = .ok d' ∧
      (∀ c ∈ Literal.meaning atoms, c.toNat ≤ 0xFFFF) ∧
        d'.counter + (Literal.meaning atoms).length + 1 ≤ 0x10000 ∧
          p = .within (d'.pushString line.number head (Literal.words atoms)) := by
  have count : (Literal.words atoms).length = (Literal.meaning atoms).length := List.length_map _
  have live : ∀ e, within d ≠ .ended e := by
    intro e same
    cases same
  constructor
  · intro read
    obtain ⟨clause, same, reads⟩ := reads_of_readLine live read
    obtain rfl := Except.ok.inj (same.symm.trans parsed)
    cases reads with
    | statement makes placed =>
        obtain ⟨d', defined, pushed⟩ := Stage.bind_eq_ok.mp placed
        cases makes with
        | string only characters =>
            cases only
            obtain ⟨small, rfl⟩ := (spelled.characters_eq_ok_iff closed).mp characters
            obtain ⟨fits, rfl⟩ := Draft.push_string_eq_ok_iff.mp pushed
            rw [count] at fits
            exact ⟨d', defined, small, fits, rfl⟩
  · rintro ⟨d', defined, small, fits, rfl⟩
    have characters := (spelled.characters_eq_ok_iff closed).mpr ⟨small, rfl⟩
    have pushed : d'.push line.number head (.string (Literal.words atoms)) = .ok _ :=
      Draft.push_string_eq_ok_iff.mpr ⟨by rw [count]; exact fits, rfl⟩
    exact readLine_of_reads live parsed
      (.statement (.string rfl characters) (Stage.bind_eq_ok.mpr ⟨d', defined, pushed⟩))

/-- The words of a STRINGZ in a program: what the units of its literal stand for and a zero, at the
address of its statement. -/
theorem Listing.Laid.exists_words_string {l : Listing} {lines : List Line} {program : Program}
    {line : Line} {label : Option Token} {head : Token} {operands : List Token}
    (laid : l.Laid lines) (emitted : l.program = .ok program) (inside : line ∈ lines)
    (parsed : Clause.ofTokens line.tokens = .ok (.directive label head .string operands)) :
    ∃ t characters, operands = [t] ∧ t.characters = .ok characters ∧ ∃ s ∈ l.statements,
      line.Makes s ∧ ∃ before after, program.words = before ++ (characters ++ [0]) ++ after ∧
        s.address.toNat = program.origin.toNat + before.length := by
  obtain ⟨wss, emits, rfl⟩ := Listing.program_eq_ok_iff.mp emitted
  have counted : line ∈ lines.filter Line.hasStatement := by
    refine List.mem_filter.mpr ⟨inside, ?_⟩
    rw [Line.hasStatement, Line.clause?_of_ofTokens parsed]
    rfl
  obtain ⟨s, member, made⟩ := Stage.exists_of_forall₂_left laid.made counted
  obtain ⟨before, ws, after, whole, own, place⟩ :=
    Statement.exists_stretch emits laid.consecutive member
  have source := made
  obtain ⟨clause, head', same, makes, -, -⟩ := made
  obtain rfl := Except.ok.inj (same.symm.trans parsed)
  generalize content : s.content = c at makes
  cases makes with
  | @string _ _ _ t characters only read =>
      obtain rfl := Clause.single_eq_ok_iff.mp only
      obtain rfl := own.unique (.string content)
      exact ⟨t, characters, rfl, read, s, member, source, before, after, whole, place⟩

/-- The lexer and the parser agree on the escapes in the string literals of a source. -/
structure EscapesAgree (source : List Char) : Prop where
  literals : ∀ t ∈ tokenize source, t.kind = .stringLiteral true → ∃ atoms, t.Spelled atoms
  /-- No literal is malformed. -/
  wellFormed : ∀ d, Listing.ofText source = .error d ∨ assemble source = .error d →
    d.problem ≠ .grammar .stringMalformed
  read : ∀ line ∈ Line.ofText source, ∀ label head t,
    Clause.ofTokens line.tokens = .ok (.directive label head .string [t]) →
      t.kind = .stringLiteral true → ∃ atoms, t.Spelled atoms ∧
        ∀ d p, (Progress.within d).readLine line = .ok p ↔ ∃ d', d.defineSome label = .ok d' ∧
          (∀ c ∈ Literal.meaning atoms, c.toNat ≤ 0xFFFF) ∧
            d'.counter + (Literal.meaning atoms).length + 1 ≤ 0x10000 ∧
              p = .within (d'.pushString line.number head (Literal.words atoms))
  emitted : ∀ program, assemble source = .ok program → ∃ l, Listing.ofText source = .ok l ∧
    ∀ line ∈ Line.live (Line.ofText source), ∀ label head operands,
      Clause.ofTokens line.tokens = .ok (.directive label head .string operands) →
        ∃ t atoms, operands = [t] ∧ t.Spelled atoms ∧
          (∀ c ∈ Literal.meaning atoms, c.toNat ≤ 0xFFFF) ∧ ∃ s ∈ l.statements, line.Makes s ∧
            ∃ before after, program.words = before ++ (Literal.words atoms ++ [0]) ++ after ∧
              s.address.toNat = program.origin.toNat + before.length

theorem Clause.mem_of_operand {line : Line} {label : Option Token} {head t : Token}
    {operands : List Token} {directive : Directive}
    (parsed : ofTokens line.tokens = .ok (.directive label head directive operands))
    (member : t ∈ operands) : t ∈ line.tokens :=
  subset_of_ofTokens parsed (by simp [tokens, member])

theorem escapesAgree (source : List Char) : EscapesAgree source where
  literals t member closed := Token.spelled_of_mem_tokenize member closed
  wellFormed d failed := by
    have refused : assemble source = .error d := by
      cases failed with
      | inl failed => exact Stage.bind_eq_error.mpr (.inl failed)
      | inr failed => exact failed
    intro malformed
    cases isOfLine_of_assemble refused with
    | inl blamed =>
        obtain ⟨line, -, -, own⟩ := blamed
        rw [malformed] at own
        cases own
    | inr missing =>
        rw [missing] at malformed
        cases malformed
  read line inside label head t parsed closed := by
    have member := Clause.mem_of_operand parsed List.mem_cons_self
    obtain ⟨atoms, spelled⟩ := Token.spelled_of_mem_tokenize
      (Line.mem_tokenize_of_mem_ofText inside member) closed
    exact ⟨atoms, spelled, fun d p => Progress.readLine_string_eq_ok_iff parsed closed spelled⟩
  emitted program assembled := by
    obtain ⟨l, listed, emitted⟩ := assemble_eq_ok_iff.mp assembled
    refine ⟨l, listed, fun line inside label head operands parsed => ?_⟩
    obtain ⟨t, characters, rfl, read, s, member, made, before, after, whole, place⟩ :=
      (Listing.laid_of_ofText listed).exists_words_string emitted inside parsed
    have closed : t.kind = .stringLiteral true := (Token.characters_eq_ok_iff.mp read).1
    have own := Clause.mem_of_operand parsed List.mem_cons_self
    obtain ⟨atoms, spelled⟩ := Token.spelled_of_mem_tokenize
      (Line.mem_tokenize_of_mem_ofText (Line.live_subset _ inside) own) closed
    obtain ⟨small, rfl⟩ := (spelled.characters_eq_ok_iff closed).mp read
    exact ⟨t, atoms, rfl, spelled, small, s, member, made, before, after, whole, place⟩

example : ∃ program,
    assemble ".ORIG x3000\n.STRINGZ \"\\q\\\"\\\\\"".toList = .ok program ∧
      program.words = [0x5C, 0x71, 0x22, 0x5C, 0] :=
  ⟨_, rfl, rfl⟩

end LC3
