import LC3.Proofs.Assembly.Disassembly
import LC3.Proofs.Assembly.Grammar
import LC3.Proofs.Source.Quoted

/-!
String literals for any characters. A line feed, a quote and a backslash are written as escapes and
every other character stands for itself. Such a literal is one token, its text is read back as the
characters it was written for, and a STRINGZ of it is these characters as words and a zero. Main
statements: `unescape_escape`, `before_quote`, `assemble_quotation`.
-/

namespace LC3
namespace Literal

/-- How a character is written between quotes. -/
def escaped (c : Char) : List Char :=
  if c = '\n' then ['\\', 'n'] else if c = '"' ∨ c = '\\' then ['\\', c] else [c]

def escape (text : List Char) : List Char := text.flatMap escaped

/-- A string literal for these characters. -/
def quote (text : List Char) : List Char := '"' :: (escape text ++ ['"'])

/-- A character stands for itself, or a backslash and another character stand for it. -/
inductive Escapes (c : Char) : List Char → Prop
  | plain (feed : c ≠ '\n') (quote : c ≠ '"') (backslash : c ≠ '\\') : Escapes c [c]
  | pair {d} (feed : d ≠ '\n') (stands : escape? d = some c) : Escapes c ['\\', d]

variable {c : Char} {written done text rest : List Char}

theorem escapes_escaped (c : Char) : Escapes c (escaped c) := by
  unfold escaped
  split
  · next feed => exact feed ▸ .pair (by decide) rfl
  · next feed =>
    split
    · next special =>
      rcases special with rfl | rfl
      · exact .pair (by decide) rfl
      · exact .pair (by decide) rfl
    · next plain =>
      rw [not_or] at plain
      exact .plain feed plain.1 plain.2

theorem Escapes.body (h : Escapes c written) (inside : Body rest) : Body (written ++ rest) := by
  cases h with
  | plain _ quote backslash => exact .plain quote backslash inside
  | pair => exact .pair inside

theorem Escapes.not_mem_newline (h : Escapes c written) : '\n' ∉ written := by
  cases h with
  | plain feed => simpa using feed.symm
  | pair feed => simpa using feed.symm

theorem Escapes.unescapeInto (h : Escapes c written) :
    unescapeInto done (written ++ rest) = Literal.unescapeInto (c :: done) rest := by
  cases h with
  | plain _ _ backslash =>
      rw [List.singleton_append, unescapeInto.eq_2 _ _ _ fun _ _ same => absurd same backslash]
  | pair _ stands =>
      simp only [List.cons_append, List.nil_append, Literal.unescapeInto, stands]

theorem body_escape (text : List Char) : Body (escape text) := by
  induction text with
  | nil => exact .nil
  | cons c text ih => exact (escapes_escaped c).body ih

theorem newline_not_mem_escape (text : List Char) : '\n' ∉ escape text := by
  simp only [escape, List.mem_flatMap, not_exists, not_and]
  exact fun c _ => (escapes_escaped c).not_mem_newline

theorem unescapeInto_escape : unescapeInto done (escape text) = done.reverse ++ text := by
  induction text generalizing done with
  | nil => simp [escape, unescapeInto]
  | cons c text ih =>
      calc unescapeInto done (escape (c :: text))
        _ = unescapeInto done (escaped c ++ escape text) := rfl
        _ = unescapeInto (c :: done) (escape text) := (escapes_escaped c).unescapeInto
        _ = done.reverse ++ c :: text := by rw [ih, List.reverse_cons, List.append_assoc]; rfl

/-- The escapes of a text are resolved to the text. -/
theorem unescape_escape (text : List Char) : unescape (escape text) = text := unescapeInto_escape

end Literal

/-- A literal is one token whatever follows it. -/
theorem Piece.before_quote (text rest : List Char) :
    (⟨.stringLiteral true, Literal.quote text⟩ : Piece).Before rest := by
  have inner : '\n' ∉ (Literal.escape text ++ ['"']).tail := by
    intro member
    rcases List.mem_append.mp (List.mem_of_mem_tail member) with inside | last
    · exact Literal.newline_not_mem_escape text inside
    · simp at last
  have closed : Lexeme.quoted 0 (Literal.escape text ++ '"' :: rest) =
      (true, (Literal.escape text).length + 1) :=
    (Lexeme.Quoted.closed (Literal.body_escape text) inner).quoted_eq
  refine ⟨'"', Literal.escape text ++ ['"'], rfl, ?_⟩
  have lexeme (after : List Char) : Lexeme.of '"' after =
      ⟨.stringLiteral (Lexeme.quoted 0 after).1, (Lexeme.quoted 0 after).2⟩ := rfl
  rw [lexeme, List.append_assoc, List.singleton_append, closed, List.length_append]
  rfl

namespace Token

variable {t : Token} {text : List Char}

/-- The characters of a literal are those it was written for. -/
theorem characters_quote (h : t.piece = ⟨.stringLiteral true, Literal.quote text⟩) :
    t.characters = text.mapM t.character := by
  obtain ⟨kind, same⟩ := Piece.mk.inj h
  have body : Literal.quotedBody? t.text = some (Literal.escape text) :=
    quotedBody?_eq_some_iff.mpr same
  simp only [characters, kind, body, Literal.unescape_escape]

end Token

/-- A program of one string: its origin and a STRINGZ. -/
def quotation (origin : Word) (text : List Char) : List Char :=
  Directive.origin.write origin ++
    '\n' :: Line.write Directive.string.name.toList [Literal.quote text]

namespace Quotation

/-- What is cut from the text. -/
def pieces (origin : Word) (text : List Char) : List Piece :=
  (Line.Written.directive .origin origin).pieces ++ .newline ::
    [⟨.directive, Directive.string.name.toList⟩, ⟨.whitespace, [' ']⟩,
      ⟨.stringLiteral true, Literal.quote text⟩]

/-- The token of the literal, behind the line of the origin, the directive and a blank. -/
def literal (origin : Word) (text : List Char) : Token :=
  ⟨.stringLiteral true, byteLength (Directive.origin.write origin) + 10, Literal.quote text⟩

variable {origin : Word} {text : List Char}

theorem join_pieces : Piece.join (pieces origin text) = quotation origin text := by
  have first : Piece.join (Line.Written.directive .origin origin).pieces =
      Directive.origin.write origin := Line.Written.text_directive .origin origin
  rw [pieces, Piece.join_append, first]
  simp [quotation, Piece.newline, Line.write, separated]

theorem cut_pieces : Piece.Cut [] (pieces origin text) := by
  refine Piece.cut_append.mpr ⟨?_, Piece.before_newline _, ?_, ?_, Piece.before_quote .., trivial⟩
  · refine Line.cut_written (Line.Written.directive .origin origin).word
      (Line.Written.directive .origin origin).words ?_
    rintro _ ⟨⟩
    exact .inr rfl
  · refine (Line.isWord_directive .string).whole.of_boundary rfl ?_
    rintro _ ⟨⟩
    exact .inl rfl
  · exact Piece.before_whitespace (by decide) (List.forall_mem_singleton.mpr rfl) rfl

/-- The text has a line for the origin and one for the string. -/
theorem exists_lines (origin : Word) (text : List Char) : ∃ first head,
    Line.ofText (quotation origin text) = [first, ⟨2, [head, literal origin text]⟩] ∧
      first.tokens.map Token.piece =
        [⟨.directive, Directive.origin.name.toList⟩, ⟨.hexLiteral, origin.hexText⟩] ∧
      head.piece = ⟨.directive, Directive.string.name.toList⟩ := by
  have tokens : tokenize (quotation origin text) = Piece.place 0 (pieces origin text) :=
    join_pieces ▸ Piece.tokens_join cut_pieces 0
  have start : byteLength (Directive.origin.write origin) =
      byteLength Directive.origin.name.toList + 1 + byteLength origin.hexText := by
    simp [Directive.write, Line.write, separated, Nat.add_assoc]
    rfl
  refine ⟨⟨1, [⟨.directive, 0, Directive.origin.name.toList⟩, ⟨.hexLiteral, 6, origin.hexText⟩]⟩,
    ⟨.directive, byteLength (Directive.origin.write origin) + 1,
      Directive.string.name.toList⟩, ?_, rfl, rfl⟩
  rw [Line.ofText, tokens, literal, start]
  rfl

/-- What comes of the text is settled by what the directive makes of the literal. -/
theorem exists_foldlM_readLine (origin : Word) (text : List Char) : ∃ head,
    (Line.ofText (quotation origin text)).foldlM Progress.readLine .beforeOrigin =
      ((Progress.within (.start origin)).readDirective 2 none head [literal origin text]
        .string).mapError (·.onLine 2) := by
  obtain ⟨first, head, lines, opening, own⟩ := exists_lines origin text
  obtain ⟨kind, named⟩ := Piece.mk.inj own
  have clause : Clause.ofTokens [head, literal origin text] =
      .ok (.directive none head .string [literal origin text]) :=
    Line.ofTokens_of_directive kind (named ▸ rfl) _
  refine ⟨head, ?_⟩
  rw [lines, List.foldlM_cons, Progress.readLine_origin opening, Stage.ok_bind, List.foldlM_cons,
    Progress.readLine_within, clause]
  exact bind_pure _

theorem characters_literal : (literal origin text).characters =
    text.mapM (literal origin text).character :=
  Token.characters_quote rfl

/-- A literal whose characters are words is the one statement of the text. -/
theorem exists_ofText_eq_ok {characters : List Word}
    (read : (literal origin text).characters = .ok characters)
    (fits : origin.toNat + characters.length + 1 ≤ 0x10000) :
    ∃ s, Listing.ofText (quotation origin text) = .ok ⟨origin, [s], .empty⟩ ∧
      s.content = .string characters := by
  obtain ⟨head, folded⟩ := exists_foldlM_readLine origin text
  have size : (Content.string characters).size = characters.length + 1 := rfl
  have start : (Draft.start origin).counter = origin.toNat := rfl
  have pushed : (Draft.start origin).push 2 head (.string characters) = .ok _ :=
    Draft.push_eq_ok_iff.mpr ⟨by omega, by omega, rfl⟩
  have clause : (Progress.within (.start origin)).readClause 2
      (.directive none head .string [literal origin text]) = .ok (.within _) :=
    Progress.readClause_of_reads (.statement (.string rfl read) pushed)
  refine ⟨⟨2, BitVec.ofNat 16 origin.toNat, head.span, .string characters⟩, ?_, rfl⟩
  rw [Progress.readClause] at clause
  rw [clause] at folded
  rw [Listing.ofText, Listing.ofLines, folded]
  rfl

/-- A literal that has no words is what is wrong with the text. -/
theorem assemble_eq_error {complaint : Complaint}
    (refused : (literal origin text).characters = .error complaint) :
    assemble (quotation origin text) = .error (complaint.onLine 2) := by
  obtain ⟨head, folded⟩ := exists_foldlM_readLine origin text
  have directive : (Progress.within (.start origin)).readDirective 2 none head
      [literal origin text] .string = .error complaint :=
    Stage.bind_eq_error.mpr (.inr ⟨_, rfl, Stage.bind_eq_error.mpr (.inr ⟨_, rfl,
      Stage.bind_eq_error.mpr (.inl refused)⟩)⟩)
  rw [directive] at folded
  exact assemble_eq_error_of_foldlM folded

end Quotation

/-- A string of any characters up to U+FFFF is assembled to these characters and a zero, and one
with a character beyond is refused for the first such character. -/
theorem assemble_quotation (origin : Word) (text : List Char) :
    ((∀ c ∈ text, c.toNat ≤ 0xFFFF) → origin.toNat + text.length + 1 ≤ 0x10000 →
      assemble (quotation origin text) =
        .ok ⟨origin, (text.map fun c => BitVec.ofNat 16 c.toNat) ++ [0], .empty⟩) ∧
    ∀ before c after, text = before ++ c :: after → (∀ d ∈ before, d.toNat ≤ 0xFFFF) →
      0xFFFF < c.toNat →
        assemble (quotation origin text) = .error
          ⟨⟨(Quotation.literal origin text).span, .outOfRange .character c.toNat .words⟩, 2⟩ := by
  constructor
  · intro small fits
    have characters := Quotation.characters_literal.trans
      (Token.mapM_character_eq_ok_iff (t := Quotation.literal origin text).mpr ⟨small, rfl⟩)
    obtain ⟨s, listed, content⟩ :=
      Quotation.exists_ofText_eq_ok characters (by simpa only [List.length_map] using fits)
    refine assemble_eq_ok_iff.mpr ⟨_, listed, Listing.program_eq_ok_iff.mpr
      ⟨[_], .cons (.string content) .nil, ?_⟩⟩
    rw [List.flatten_singleton]
  · rintro before c after rfl small wide
    refine Quotation.assemble_eq_error (Quotation.characters_literal.trans
      (Stage.mapM_eq_error_iff.mpr ⟨before, c, after, rfl, fun d inside => ?_, ?_⟩))
    · exact ⟨_, if_pos (small d inside)⟩
    · exact if_neg (Nat.not_le.mpr wide)

/-- Backslashes before a quote, before a letter and at the end, a semicolon, a NUL, a letter of two
bytes and a line feed. -/
def awkwardText : List Char :=
  ['\\', '"', ';', '\\', 'n', '\x00', 'é', '\n', '\\', '\\']

theorem assemble_quotation_awkwardText :
    Literal.quote awkwardText = "\"\\\\\\\";\\\\n\x00é\\n\\\\\\\\\"".toList ∧
      assemble (quotation 0xFFF5 awkwardText) =
        .ok ⟨0xFFF5, [0x5C, 0x22, 0x3B, 0x5C, 0x6E, 0, 0xE9, 0x0A, 0x5C, 0x5C, 0], .empty⟩ ∧
      assemble (quotation 0xFFF5 (awkwardText ++ ['😀', '🦀'])) = .error
        ⟨⟨⟨21, 27⟩, .outOfRange .character 0x1F600 .words⟩, 2⟩ := by
  have small : ∀ c ∈ awkwardText, c.toNat ≤ 0xFFFF := by simp [awkwardText]
  exact ⟨rfl, (assemble_quotation 0xFFF5 awkwardText).1 small (by decide),
    (assemble_quotation 0xFFF5 (awkwardText ++ ['😀', '🦀'])).2 awkwardText '😀' ['🦀'] rfl small
      (by decide)⟩

end LC3
