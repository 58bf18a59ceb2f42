import LC3.Proofs.Assembly.SecondPass
import LC3.Proofs.Assembly.Writing

/-!
Assembly text for any words in memory. Each word is a line of its own, an instruction where it is
one that has a mnemonic and a FILL elsewhere, and this text is assembled to the words again. Main
statement: `assemble_disassembly`.
-/

namespace LC3

/-- A blank before the first of some operands, a comma and a blank before each other one. -/
def separated {α : Type} : List α → List (List Char × α)
  | [] => []
  | first :: rest => ([' '], first) :: rest.map fun a => ([',', ' '], a)

/-- A mnemonic or directive and its operands on one line. -/
def Line.write (head : List Char) (operands : List (List Char)) : List Char :=
  head ++ (separated operands).flatMap fun o => o.1 ++ o.2

/-- A directive with one word as its operand. -/
def Directive.write (d : Directive) (w : Word) : List Char := Line.write d.name.toList [w.hexText]

/-- The line of a word: an instruction that has a mnemonic, or else the word itself. -/
def Word.assembly (w : Word) : List Char :=
  match Instruction.decode .strict w with
  | .ok i =>
    match i.mnemonic? with
    | some m => Line.write m.spelling (i.operands.map OperandValue.text)
    | none => Directive.fill.write w
  | .error _ => Directive.fill.write w

/-- Assembly text for words from an origin on. -/
def disassembly (origin : Word) (words : List Word) : List Char :=
  Directive.origin.write origin ++ words.flatMap fun w => '\n' :: w.assembly

theorem map_snd_separated {α : Type} (operands : List α) :
    (separated operands).map Prod.snd = operands := by
  cases operands <;> simp [separated]

theorem isBlank_of_mem_separated {α : Type} {operands : List α} {o : List Char × α}
    (h : o ∈ separated operands) : Line.IsBlank o.1 ∧ o.2 ∈ operands := by
  have blank : Line.IsBlank [' '] := by decide
  have comma : Line.IsBlank [',', ' '] := by decide
  cases operands with
  | nil => cases h
  | cons first rest =>
      rcases List.mem_cons.mp h with rfl | later
      · exact ⟨blank, List.mem_cons_self⟩
      · obtain ⟨a, member, rfl⟩ := List.mem_map.mp later
        exact ⟨comma, List.mem_cons_of_mem first member⟩

namespace Line

/-- A line of a head and operands with blanks and commas between them. -/
def Written.of (head : Piece) (operands : List Piece) (word : IsWord head)
    (words : ∀ p ∈ operands, IsWord p) : Written where
  head
  operands := separated operands
  word
  words _ member :=
    ⟨(isBlank_of_mem_separated member).1, words _ (isBlank_of_mem_separated member).2⟩

theorem Written.text_of {head : Piece} {operands : List Piece} {word : IsWord head}
    {words : ∀ p ∈ operands, IsWord p} :
    (Written.of head operands word words).text = write head.text (operands.map Piece.text) := by
  have join (pairs : List (List Char × Piece)) :
      Piece.join (pairs.flatMap fun o => [⟨.whitespace, o.1⟩, o.2]) =
        pairs.flatMap fun o => o.1 ++ o.2.text := by
    simp [Piece.join, List.flatMap_assoc]
  rw [Written.text, Written.pieces, Written.of, written, Piece.join_cons, join, write]
  cases operands <;> simp [separated, List.flatMap_map]

/-- The tokens of a line without a label make a statement of one word, wherever it stands. -/
def States (w : Word) (tokens : List Token) : Prop :=
  ∃ clause head content, Clause.ofTokens tokens = .ok clause ∧ clause.Makes head content ∧
    clause.label? = none ∧
      ∀ s : Statement, s.content = content → ∀ symbols, s.Emits symbols [w]

theorem ofTokens_of_mnemonic {head : Token} {m : Mnemonic} (kind : head.kind = .identifier)
    (named : Mnemonic.ofName? head.text = some m) (operands : List Token) :
    Clause.ofTokens (head :: operands) = .ok (.instruction none head m operands) := by
  have role : head.role = .identifier := by rw [Token.role, kind]
  simp only [Clause.ofTokens, Clause.splitLabel, Clause.ofRest, role, named, bind, Except.bind,
    reduceCtorEq, and_false, if_false]

theorem ofTokens_of_directive {head : Token} {d : Directive} (kind : head.kind = .directive)
    (named : Directive.ofName? head.text = some d) (operands : List Token) :
    Clause.ofTokens (head :: operands) = .ok (.directive none head d operands) := by
  have role : head.role = .directive := by rw [Token.role, kind]
  simp only [Clause.ofTokens, Clause.splitLabel, Clause.ofRest, role, named, bind, Except.bind,
    reduceCtorEq, false_and, if_false]

theorem States.of_instruction {tokens : List Token} {w : Word} {i : Instruction} {m : Mnemonic}
    (decoded : Instruction.decode .strict w = .ok i) (named : i.mnemonic? = some m)
    (same : tokens.map Token.piece =
      ⟨.identifier, m.spelling⟩ :: i.operands.map OperandValue.piece) : States w tokens := by
  obtain ⟨head, rest, rfl, first, others⟩ := List.map_eq_cons_iff.mp same
  have kind : head.kind = .identifier := congrArg Piece.kind first
  have text : head.text = m.spelling := congrArg Piece.text first
  have clause := ofTokens_of_mnemonic kind (text ▸ m.ofName?_spelling) rest
  obtain ⟨operands, read, values⟩ := OperandValue.exists_operands i.plain_operands others
  refine ⟨_, head, _, clause, .instruction read, rfl, fun s content symbols => ?_⟩
  exact .instruction content
    (Statement.instructionWord_of_mnemonic? named values (Instruction.encode_of_decode decoded))

theorem States.of_fill {tokens : List Token} {w : Word}
    (same : tokens.map Token.piece =
      [⟨.directive, Directive.fill.name.toList⟩, ⟨.hexLiteral, w.hexText⟩]) : States w tokens := by
  obtain ⟨head, rest, rfl, first, others⟩ := List.map_eq_cons_iff.mp same
  obtain ⟨t, rfl, own⟩ := List.map_eq_singleton_iff.mp others
  have kind : head.kind = .directive := congrArg Piece.kind first
  have text : head.text = Directive.fill.name.toList := congrArg Piece.text first
  have clause := ofTokens_of_directive kind (d := .fill) (text ▸ rfl) [t]
  have read : Clause.fillDatum t = .ok (.literal w.toNat) := by
    rw [Clause.fillDatum, Operand.ofToken_hexText own]
    rfl
  have within : (w.toNat : Int) ∈ Interval.fills := w.toNat_mem_of_le (by decide) (by decide)
  refine ⟨_, head, _, clause, .fill rfl read, rfl, fun s content symbols => ?_⟩
  have emits : s.Emits symbols _ := .literal content within
  rwa [w.ofInt_toNat] at emits

theorem isWord_hexText (w : Word) : IsWord ⟨.hexLiteral, w.hexText⟩ :=
  ⟨Piece.before_hexText w, rfl, nofun⟩

theorem isWord_directive (d : Directive) : IsWord ⟨.directive, d.name.toList⟩ := by
  cases d <;> decide

/-- The line of a directive with one word. -/
def Written.directive (d : Directive) (w : Word) : Written :=
  .of ⟨.directive, d.name.toList⟩ [⟨.hexLiteral, w.hexText⟩] (isWord_directive d)
    (List.forall_mem_singleton.mpr (isWord_hexText w))

theorem Written.text_directive (d : Directive) (w : Word) : (directive d w).text = d.write w :=
  text_of

/-- The text is a line, and its words are a statement of `w`. -/
def Writes (w : Word) (text : List Char) : Prop :=
  ∃ l : Written, l.text = text ∧
    ∀ tokens : List Token, tokens.map Token.piece = l.bare → States w tokens

theorem writes_assembly (w : Word) : Writes w w.assembly := by
  have fill : Writes w (Directive.fill.write w) :=
    ⟨.directive .fill w, Written.text_directive .fill w, fun tokens same => .of_fill same⟩
  cases decoded : Instruction.decode .strict w with
  | error cause => simpa only [Word.assembly, decoded] using fill
  | ok i =>
      cases named : i.mnemonic? with
      | none => simpa only [Word.assembly, decoded, named] using fill
      | some m =>
          have words : ∀ p ∈ i.operands.map OperandValue.piece, IsWord p := by
            intro p member
            obtain ⟨value, operand, rfl⟩ := List.mem_map.mp member
            exact (i.plain_operands value operand).isWord
          refine ⟨.of ⟨.identifier, m.spelling⟩ _ m.isWord_spelling words, ?_, ?_⟩
          · simp only [Written.text_of, List.map_map, Word.assembly, decoded, named]
            rfl
          · intro tokens same
            simp only [Written.bare, Written.of, map_snd_separated] at same
            exact .of_instruction decoded named same

end Line

namespace Draft

variable {d : Draft} {line : Line} {w : Word}

/-- A line that states a word adds a statement of that word. -/
theorem readLine_of_states (h : Line.States w line.tokens) (inside : d.counter ≤ 0xFFFF) :
    ∃ s, (Progress.within d).readLine line = .ok (.within
        { d with counter := d.counter + 1, statements := d.statements.push s }) ∧
      ∀ symbols, s.Emits symbols [w] := by
  obtain ⟨clause, head, content, parsed, makes, unlabelled, emits⟩ := h
  have size : content.size = 1 := (emits ⟨0, 0, ⟨0, 0⟩, content⟩ rfl .empty).length.symm
  have pushed : d.push line.number head content = .ok { d with
      counter := d.counter + 1
      statements := d.statements.push
        ⟨line.number, BitVec.ofNat 16 d.counter, head.span, content⟩ } :=
    push_eq_ok_iff.mpr ⟨inside, by omega, by rw [size]⟩
  refine ⟨⟨line.number, BitVec.ofNat 16 d.counter, head.span, content⟩,
    Progress.readLine_of_reads nofun parsed (.statement makes ?_), emits _ rfl⟩
  rw [unlabelled]
  exact pushed

/-- Lines that each state a word add statements of these words. -/
theorem foldlM_readLine_of_states {lines : List Line} {words : List Word}
    (h : List.Forall₂ (fun line w => Line.States w line.tokens) lines words)
    (fits : d.counter + words.length ≤ 0x10000) :
    ∃ d' statements, lines.foldlM Progress.readLine (.within d) = .ok (.within d') ∧
      d'.origin = d.origin ∧ d'.symbols = d.symbols ∧
        d'.statements.toList = d.statements.toList ++ statements ∧
          List.Forall₂ (fun s w => ∀ symbols, s.Emits symbols [w]) statements words := by
  induction h generalizing d with
  | nil => exact ⟨d, [], rfl, rfl, rfl, (List.append_nil _).symm, .nil⟩
  | cons first _ ih =>
      rw [List.length_cons] at fits
      obtain ⟨s, read, emits⟩ := readLine_of_states first (d := d) (by omega)
      obtain ⟨d', statements, run, origin, symbols, whole, others⟩ := ih (d := { d with
        counter := d.counter + 1, statements := d.statements.push s }) (by simp only; omega)
      refine ⟨d', s :: statements, ?_, origin, symbols, ?_, .cons emits others⟩
      · rw [List.foldlM_cons, read]
        exact run
      · rw [whole]
        simp

end Draft

theorem Progress.readLine_origin {line : Line} {origin : Word}
    (same : line.tokens.map Token.piece =
      [⟨.directive, Directive.origin.name.toList⟩, ⟨.hexLiteral, origin.hexText⟩]) :
    Progress.beforeOrigin.readLine line = .ok (.within (Draft.start origin)) := by
  obtain ⟨head, rest, tokens, first, others⟩ := List.map_eq_cons_iff.mp same
  obtain ⟨t, rfl, own⟩ := List.map_eq_singleton_iff.mp others
  have kind : head.kind = .directive := congrArg Piece.kind first
  have text : head.text = Directive.origin.name.toList := congrArg Piece.text first
  have clause := Line.ofTokens_of_directive kind (d := .origin) (text ▸ rfl) [t]
  have read : t.unsignedWord .origin = .ok origin := by
    have within : (origin.toNat : Int) ∈ Interval.words :=
      origin.toNat_mem_of_le (by decide) (by decide)
    simp only [Token.unsignedWord, Token.number_hexText own, bind, Except.bind, within, if_true,
      pure, Except.pure, origin.ofInt_toNat]
  exact Progress.readLine_of_reads nofun (tokens ▸ clause) (.origin rfl read rfl)

/-- Any words from any origin on are assembled from their disassembly. -/
theorem assemble_disassembly (origin : Word) (words : List Word)
    (fits : origin.toNat + words.length ≤ 0x10000) :
    assemble (disassembly origin words) = .ok ⟨origin, words, .empty⟩ := by
  choose line text states using Line.writes_assembly
  have whole : disassembly origin words =
      Line.Written.lines (.directive .origin origin) (words.map line) := by
    simp only [disassembly, Line.Written.lines, Line.Written.text_directive, List.flatMap_map, text]
  have lines := Line.Written.map_words_ofText (.directive .origin origin) (words.map line)
  rw [← whole, List.map_map, List.map_cons, List.map_map] at lines
  obtain ⟨first, later, split, opening, stated⟩ := List.map_eq_cons_iff.mp lines
  have each : List.Forall₂ (fun line w => Line.States w line.tokens) later words := by
    rw [← List.forall₂_eq_eq_eq, List.forall₂_map_left_iff,
      List.forall₂_map_right_iff] at stated
    exact stated.imp fun l w same => states w l.tokens same
  obtain ⟨d, statements, read, same, symbols, all, emits⟩ :=
    Draft.foldlM_readLine_of_states (d := .start origin) each fits
  refine assemble_eq_ok_iff.mpr ⟨d.listing, ?_, Listing.program_eq_ok_iff.mpr
    ⟨words.map fun w => [w], ?_, ?_⟩⟩
  · rw [Listing.ofText, split]
    refine Stage.bind_eq_ok.mpr ⟨.within d, ?_, rfl⟩
    rw [List.foldlM_cons, Progress.readLine_origin opening]
    exact read
  · rw [List.forall₂_map_right_iff, Draft.listing, all]
    exact emits.imp fun s w emits => emits d.symbols
  · rw [Draft.listing, same, symbols, ← List.flatMap_def, List.flatMap_singleton']
    rfl

/-- A negative number, a branch always taken and one never taken, no instruction, and a trap. -/
def assortedWords : List Word := [0x14BD, 0x0E05, 0x0005, 0xD123, 0xF025]

theorem assemble_disassembly_assortedWords :
    disassembly 0xFFFB assortedWords =
        (".ORIG xFFFB\nADD R2, R2, #-3\nBRNZP #5\n.FILL x0005\n.FILL xD123\nTRAP #37").toList ∧
      assemble (disassembly 0xFFFB assortedWords) = .ok ⟨0xFFFB, assortedWords, .empty⟩ :=
  ⟨rfl, assemble_disassembly 0xFFFB assortedWords (by decide)⟩

end LC3
