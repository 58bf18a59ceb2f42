import LC3.Proofs.Assembly.Emission
import LC3.Proofs.Assembly.Escapes
import LC3.Proofs.Assembly.FirstPass
import LC3.Proofs.Assembly.SecondPass
import LC3.Proofs.Source.Numbering

/-!
What a diagnostic points at. Every complaint of either pass is about a token of the line that it is
filed under, so the number of the line agrees with the line feeds before the token, as far as these
end lines. Main statements: `isOfLine_of_assemble`, `located_of_assemble`.
-/

namespace LC3

/-- All problems are those of a line but for three: the whole text lacks an origin, and that a
closed literal is malformed or an instruction has no encoding does not arise. -/
def Problem.isOfLine : Problem → Bool
  | .grammar .originMissing | .grammar .stringMalformed | .unencodable _ => false
  | _ => true

/-- Whatever a stage complains of is a problem of a line, and it points at one of these tokens. -/
def Blames {α : Type} (tokens : List Token) (x : Except Complaint α) : Prop :=
  ∀ c, x = .error c → c.problem.isOfLine = true ∧ ∃ t ∈ tokens, c.span = t.span

namespace Blames

variable {α β : Type} {tokens others : List Token} {t head : Token}

theorem ok (a : α) : Blames tokens (.ok a) := nofun

theorem complaint (member : t ∈ tokens) {problem : Problem} (own : problem.isOfLine = true) :
    Blames tokens (.error ⟨t.span, problem⟩ : Except Complaint α) := by
  rintro _ ⟨⟩
  exact ⟨own, t, member, rfl⟩

theorem mono {x : Except Complaint α} (h : Blames others x) (sub : others ⊆ tokens) :
    Blames tokens x := by
  intro c failed
  obtain ⟨own, t, member, same⟩ := h c failed
  exact ⟨own, t, sub member, same⟩

theorem bind {x : Except Complaint α} {f : α → Except Complaint β} (first : Blames tokens x)
    (later : ∀ a, x = .ok a → Blames tokens (f a)) : Blames tokens (x >>= f) := by
  intro c failed
  rcases Stage.bind_eq_error.mp failed with failed | ⟨a, passed, failed⟩
  · exact first c failed
  · exact later a passed c failed

theorem map {x : Except Complaint α} {f : α → β} (h : Blames tokens x) :
    Blames tokens (x.map f) :=
  fun c failed => h c (Stage.map_eq_error.mp failed)

theorem mapM {xs : List α} {f : α → Except Complaint β} (h : ∀ x ∈ xs, Blames tokens (f x)) :
    Blames tokens (xs.mapM f) := by
  intro c failed
  obtain ⟨before, x, after, rfl, -, failed⟩ := Stage.mapM_eq_error_iff.mp failed
  exact h x (by simp) c failed

section Tokens

variable (member : t ∈ tokens)

include member

theorem bounded {α : Type} (p : Prop) [Decidable p] (a : α) {problem : Problem}
    (own : problem.isOfLine = true) :
    Blames tokens (if p then .ok a else .error ⟨t.span, problem⟩) := by
  split
  · exact ok _
  · exact complaint member own

theorem number : Blames tokens t.number := by
  have value (radix : Nat) (body : List Char) : Blames tokens (t.signedValue radix body) := by
    unfold Token.signedValue
    split
    split
    · exact complaint member rfl
    · exact bounded member _ _ rfl
  unfold Token.number
  split
  · exact value _ _
  · exact value _ _
  · exact complaint member rfl

theorem unsignedWord (q : Quantity) : Blames tokens (t.unsignedWord q) :=
   (number member).bind fun _ _ => bounded member _ _ rfl

theorem characters (quotes : t.Quotes) : Blames tokens t.characters := by
  have character (c : Char) : Blames tokens (t.character c) := bounded member _ _ rfl
  unfold Token.characters
  split
  · exact complaint member rfl
  · next closed =>
    obtain ⟨body, known⟩ := quotes closed
    simp only [known]
    exact mapM fun c _ => character c
  · exact complaint member rfl

theorem operand : Blames tokens (Operand.ofToken t) := by
  unfold Operand.ofToken
  split
  · split
    · exact ok _
    · exact ok _
  · exact (number member).map
  · exact (number member).map
  · exact complaint member rfl
  · exact complaint member rfl

theorem fillDatum : Blames tokens (Clause.fillDatum t) := by
  refine (operand member).bind fun o _ => ?_
  split
  · exact ok _
  · exact complaint member rfl

theorem blockCount : Blames tokens (Clause.blockCount t) := by
  unfold Clause.blockCount
  split
  · exact unsignedWord member _
  · exact complaint member rfl

end Tokens

theorem single (head : Token) (operands : List Token) :
    Blames (head :: operands) (Clause.single head operands) := by
  match operands with
  | [] => exact complaint List.mem_cons_self rfl
  | [t] => exact ok _
  | _ :: extra :: _ => exact complaint (t := extra) (by simp) rfl

end Blames

namespace Clause

/-- The tokens of a clause but for a colon. -/
def tokens : Clause → List Token
  | .blank => []
  | .label t => [t]
  | .instruction t? head _ operands => t?.toList ++ head :: operands
  | .directive t? head _ operands => t?.toList ++ head :: operands

variable {tokens : List Token} {clause : Clause}

theorem dropColon_subset (tokens : List Token) : dropColon tokens ⊆ tokens := by
  cases tokens with
  | nil => exact List.Subset.refl _
  | cons t rest =>
      rw [dropColon]
      split
      · exact List.subset_cons_self t rest
      · exact List.Subset.refl _

theorem blames_splitLabel (tokens : List Token) : Blames tokens (splitLabel tokens) := by
  cases tokens with
  | nil => exact .ok _
  | cons t rest =>
      rw [splitLabel]
      split
      · split
        · exact .ok _
        · exact .complaint List.mem_cons_self rfl
      · exact .ok _

theorem subset_of_splitLabel {name : Option Token} {rest : List Token}
    (h : splitLabel tokens = .ok (name, rest)) : name.toList ++ rest ⊆ tokens := by
  cases tokens with
  | nil =>
      cases h
      exact List.Subset.refl _
  | cons t later =>
      rw [splitLabel] at h
      split at h
      · split at h
        · cases h
          exact List.cons_subset_cons t (dropColon_subset later)
        · cases h
      · cases h
        exact List.Subset.refl _

theorem blames_ofRest (label : Option Token) (rest : List Token) :
    Blames rest (ofRest label rest) := by
  cases rest with
  | nil => exact .ok _
  | cons head operands =>
      rw [ofRest]
      split
      · split
        · exact .ok _
        · exact .complaint List.mem_cons_self rfl
      · split
        · exact .ok _
        · exact .complaint List.mem_cons_self rfl
      · exact .complaint List.mem_cons_self rfl

theorem OfRest.tokens_subset {label : Option Token} {rest : List Token}
    (h : OfRest label rest clause) : clause.tokens ⊆ label.toList ++ rest := by
  cases h <;> exact List.Subset.refl _

theorem blames_ofTokens (tokens : List Token) : Blames tokens (ofTokens tokens) := by
  refine (blames_splitLabel tokens).bind fun (name, rest) split => ?_
  exact (blames_ofRest name rest).mono
    (List.Subset.trans (List.subset_append_right ..) (subset_of_splitLabel split))

theorem subset_of_ofTokens (h : ofTokens tokens = .ok clause) : clause.tokens ⊆ tokens := by
  obtain ⟨⟨name, rest⟩, split, h⟩ := Stage.bind_eq_ok.mp h
  exact List.Subset.trans (ofRest_eq_ok_iff.mp h).tokens_subset (subset_of_splitLabel split)

end Clause

section FirstPass

variable {tokens : List Token} {d : Draft} {p : Progress} {label : Option Token} {head : Token}

theorem Draft.blames_define {t : Token} (member : t ∈ tokens) : Blames tokens (d.define t) := by
  unfold define
  split
  · split
    · exact .ok _
    · exact .complaint member rfl
  · exact .complaint member rfl

theorem Draft.blames_defineSome (sub : label.toList ⊆ tokens) :
    Blames tokens (d.defineSome label) := by
  cases label with
  | none => exact .ok _
  | some t => exact blames_define (sub List.mem_cons_self)

theorem Draft.blames_place {line : Nat} {content : Content} (sub : label.toList ⊆ tokens)
    (member : head ∈ tokens) : Blames tokens (d.place line label head content) := by
  refine (blames_defineSome sub).bind fun d _ => ?_
  unfold push
  dsimp only
  split
  · exact .complaint member rfl
  · split
    · exact .complaint member rfl
    · exact .ok _

theorem Progress.blames_draft {t : Token} (member : t ∈ tokens) : Blames tokens (p.draft t) := by
  cases p with
  | beforeOrigin => exact .complaint member rfl
  | within d => exact .ok _
  | ended d => exact .ok _

theorem Progress.blames_readDirective (number : Nat) (directive : Directive)
    {operands : List Token} (quotes : ∀ t ∈ operands, t.Quotes) :
    Blames (label.toList ++ head :: operands)
      (p.readDirective number label head operands directive) := by
  have name : label.toList ⊆ label.toList ++ head :: operands := List.subset_append_left ..
  have rest : head :: operands ⊆ label.toList ++ head :: operands := List.subset_append_right ..
  have own : head ∈ label.toList ++ head :: operands := rest List.mem_cons_self
  have single := (Blames.single head operands).mono rest
  have operand {t : Token} (only : Clause.single head operands = .ok t) : t ∈ operands := by
    rw [Clause.single_eq_ok_iff.mp only]
    exact List.mem_cons_self
  have given {t : Token} (only : Clause.single head operands = .ok t) :
      t ∈ label.toList ++ head :: operands := rest (List.mem_cons_of_mem head (operand only))
  cases directive with
  | origin =>
      cases p with
      | beforeOrigin =>
          refine single.bind fun t only => (Blames.unsignedWord (given only) _).bind fun a _ => ?_
          exact (Draft.blames_defineSome name).bind fun d _ => .ok _
      | within d => exact .complaint own rfl
      | ended d => exact .complaint own rfl
  | stop =>
      refine (blames_draft own).bind fun d _ => ?_
      cases operands with
      | nil => exact (Draft.blames_defineSome name).bind fun d _ => .ok _
      | cons extra operands => exact .complaint (rest (by simp)) rfl
  | fill =>
      refine (blames_draft own).bind fun d _ => single.bind fun t only => ?_
      refine (Blames.fillDatum (given only)).bind fun datum _ => ?_
      exact (Draft.blames_place name own).bind fun d _ => .ok _
  | block =>
      refine (blames_draft own).bind fun d _ => single.bind fun t only => ?_
      refine (Blames.blockCount (given only)).bind fun count _ => ?_
      exact (Draft.blames_place name own).bind fun d _ => .ok _
  | string =>
      refine (blames_draft own).bind fun d _ => single.bind fun t only => ?_
      have closed := quotes t (operand only)
      refine (Blames.characters (given only) closed).bind fun characters _ => ?_
      exact (Draft.blames_place name own).bind fun d _ => .ok _

theorem Progress.blames_readClause (number : Nat) {clause : Clause}
    (quotes : ∀ t ∈ clause.tokens, t.Quotes) :
    Blames clause.tokens (p.readClause number clause) := by
  cases clause with
  | blank => exact .ok _
  | label label =>
      refine (blames_draft List.mem_cons_self).bind fun d _ => ?_
      exact (Draft.blames_define List.mem_cons_self).bind fun d _ => .ok _
  | instruction label head m operands =>
      have own : head ∈ label.toList ++ head :: operands := by simp
      refine (blames_draft own).bind fun d _ => ?_
      refine (Blames.mapM fun t member => Blames.operand (by simp [member])).bind
        fun operands' _ => ?_
      exact (Draft.blames_place (List.subset_append_left ..) own).bind fun d _ => .ok _
  | directive label head directive operands =>
      refine blames_readDirective number directive fun t member => quotes t ?_
      simp [Clause.tokens, member]

/-- The diagnostic is about a token of the line. -/
def Line.Blamed (line : Line) (d : Diagnostic) : Prop :=
  d.line = line.number ∧ ∃ t ∈ line.tokens, d.span = t.span

theorem Progress.blamed_of_readLine {line : Line} {d : Diagnostic}
    (quotes : ∀ t ∈ line.tokens, t.Quotes) (h : p.readLine line = .error d) :
    line.Blamed d ∧ d.problem.isOfLine = true := by
  have stage : ((Clause.ofTokens line.tokens).bind (p.readClause line.number)).mapError
      (·.onLine line.number) = .error d := by
    cases p with
    | beforeOrigin => exact h
    | within d => exact h
    | ended d => cases h
  obtain ⟨c, failed, rfl⟩ := Stage.mapError_eq_error.mp stage
  have blames : Blames line.tokens
      ((Clause.ofTokens line.tokens).bind (p.readClause line.number)) :=
    (Clause.blames_ofTokens _).bind fun clause parsed =>
      have sub := Clause.subset_of_ofTokens parsed
      (blames_readClause line.number fun t member => quotes t (sub member)).mono sub
  obtain ⟨own, blamed⟩ := blames c failed
  exact ⟨⟨rfl, blamed⟩, own⟩

theorem Progress.blamed_of_foldlM {lines : List Line} {d : Diagnostic}
    (quotes : ∀ line ∈ lines, ∀ t ∈ line.tokens, t.Quotes)
    (h : lines.foldlM readLine p = .error d) :
    ∃ line ∈ lines, line.Blamed d ∧ d.problem.isOfLine = true := by
  induction lines generalizing p with
  | nil => cases h
  | cons line rest ih =>
      obtain ⟨own, quotes⟩ := List.forall_mem_cons.mp quotes
      rcases Stage.bind_eq_error.mp ((List.foldlM_cons ..).symm.trans h) with h | ⟨mid, -, h⟩
      · exact ⟨line, List.mem_cons_self, blamed_of_readLine own h⟩
      · obtain ⟨later, member, blamed⟩ := ih quotes h
        exact ⟨later, List.mem_cons_of_mem _ member, blamed⟩

end FirstPass

section SecondPass

variable {s : Statement} {symbols : SymbolTable} {line : Line} {c : Complaint}

theorem Operand.span_of_ofToken {t : Token} {o : Operand} (h : ofToken t = .ok o) :
    o.span = t.span := by
  unfold ofToken at h
  split at h
  · split at h
    · cases h; rfl
    · cases h; rfl
  · obtain ⟨v, -, rfl⟩ := Stage.map_eq_ok.mp h
    rfl
  · obtain ⟨v, -, rfl⟩ := Stage.map_eq_ok.mp h
    rfl
  · cases h
  · cases h

theorem Datum.blames_fill {tokens : List Token} {t : Token} (member : t ∈ tokens)
    (datum : Datum) : Blames tokens (datum.fill symbols t.span) := by
  cases datum with
  | literal v => exact .bounded member _ _ rfl
  | label name =>
      rw [fill, address]
      split
      · exact .ok _
      · exact .complaint member rfl

theorem Form.Wrong.isOfLine {form : Form} {value : OperandValue} {problem : Problem}
    (h : form.Wrong symbols value problem) : problem.isOfLine = true := by
  cases h <;> rfl

theorem Statement.Refuses.isOfLine {m : Mnemonic} {operands : List Operand}
    (h : s.Refuses symbols m operands c) : c.problem.isOfLine = true := by
  cases h with
  | count => rfl
  | operand _ _ _ wrong => exact wrong.isOfLine
  | range => rfl

/-- An instruction without a word is blamed on its mnemonic or on an operand. -/
theorem Statement.Refuses.span {m : Mnemonic} {operands : List Operand}
    (h : s.Refuses symbols m operands c) : c.span = s.span ∨ ∃ o ∈ operands, c.span = o.span := by
  cases h with
  | count wrong =>
      cases extra : operands[m.forms.length]? with
      | none => exact .inl rfl
      | some o => exact .inr ⟨o, List.mem_of_getElem? extra, rfl⟩
  | @operand before after form o problem _ split =>
      have member : (form, o) ∈ m.forms.zip operands := by simp [split]
      exact .inr ⟨o, (List.of_mem_zip member).2, rfl⟩
  | range _ _ member => exact .inr ⟨_, (List.of_mem_zip member).2, rfl⟩

/-- The words of a statement fail at a token of its line. -/
theorem Line.Makes.blames (made : line.Makes s) : Blames line.tokens (s.words symbols) := by
  obtain ⟨clause, head, parsed, makes, -, place⟩ := made
  have sub := Clause.subset_of_ofTokens parsed
  unfold Statement.words
  generalize content : s.content = own at makes
  cases makes with
  | @instruction label _ m tokens operands read =>
      refine .map fun c failed => ?_
      have refused := Statement.refuses_of_error failed
      refine ⟨refused.isOfLine, ?_⟩
      rcases refused.span with same | ⟨o, member, same⟩
      · exact ⟨head, sub (by simp [Clause.tokens]), same.trans place⟩
      · have given := (Stage.mapM_eq_ok_iff.mp read).flip
        obtain ⟨t, source, own⟩ := Stage.exists_of_forall₂_left given member
        exact ⟨t, sub (by simp [Clause.tokens, source]),
          same.trans (Operand.span_of_ofToken own)⟩
  | @fill label _ tokens t datum only =>
      have member : t ∈ line.tokens := by
        obtain rfl := Clause.single_eq_ok_iff.mp only
        exact sub (by simp [Clause.tokens])
      exact .map (Datum.blames_fill member datum)
  | block => exact .ok _
  | string => exact .ok _

theorem Line.live_subset (lines : List Line) : live lines ⊆ lines := by
  induction lines with
  | nil => exact List.Subset.refl _
  | cons line rest ih =>
      rw [live]
      split
      · simp
      · exact List.cons_subset_cons line ih

theorem Listing.Laid.blamed {l : Listing} {lines : List Line} {d : Diagnostic}
    (laid : l.Laid (Line.live lines)) (failed : l.program = .error d) :
    ∃ line ∈ lines, line.Blamed d ∧ d.problem.isOfLine = true := by
  rcases Stage.bind_eq_error.mp failed with failed | ⟨words, -, failed⟩
  · obtain ⟨before, s, after, split, -, failed⟩ := Stage.mapM_eq_error_iff.mp failed
    obtain ⟨c, refused, rfl⟩ := Stage.mapError_eq_error.mp failed
    have member : s ∈ l.statements := by simp [split]
    obtain ⟨line, source, made⟩ := Stage.exists_of_forall₂_left laid.made.flip member
    have number : s.line = line.number := by
      obtain ⟨clause, head, -, -, same, -⟩ := made
      exact same
    obtain ⟨own, blamed⟩ := Line.Makes.blames made c refused
    exact ⟨line, Line.live_subset lines (List.mem_of_mem_filter source), ⟨number, blamed⟩, own⟩
  · cases failed

end SecondPass

theorem Line.mem_tokenize_of_mem_ofText {source : List Char} {line : Line} {t : Token}
    (inside : line ∈ ofText source) (member : t ∈ line.tokens) : t ∈ tokenize source := by
  obtain ⟨before, after, split, -⟩ := exists_of_mem_ofText inside member
  rw [split]
  exact List.mem_append_right before List.mem_cons_self

/-- A text that is not assembled has a problem of a line at a token of it, or it has no origin. -/
theorem isOfLine_of_assemble {source : List Char} {d : Diagnostic}
    (failed : assemble source = .error d) :
    (∃ line ∈ Line.ofText source, line.Blamed d ∧ d.problem.isOfLine = true) ∨
      d = ⟨⟨⟨byteLength source, 0⟩, .grammar .originMissing⟩, (Line.ofText source).length⟩ := by
  rcases Stage.bind_eq_error.mp failed with failed | ⟨l, listed, failed⟩
  · rcases Stage.bind_eq_error.mp failed with failed | ⟨p, -, failed⟩
    · refine .inl (Progress.blamed_of_foldlM (fun line inside t member => ?_) failed)
      exact Token.quotes_of_mem_tokenize (Line.mem_tokenize_of_mem_ofText inside member)
    · cases p with
      | beforeOrigin =>
          cases failed
          exact .inr rfl
      | within d => cases failed
      | ended d => cases failed
  · exact .inl ((Listing.laid_of_ofText listed).blamed failed)

theorem blamed_of_assemble {source : List Char} {d : Diagnostic}
    (failed : assemble source = .error d) :
    (∃ line ∈ Line.ofText source, line.Blamed d) ∨
      d = ⟨⟨⟨byteLength source, 0⟩, .grammar .originMissing⟩, (Line.ofText source).length⟩ :=
  (isOfLine_of_assemble failed).imp_left fun ⟨line, inside, blamed, _⟩ => ⟨line, inside, blamed⟩

/-- What the line and the span of a diagnostic owe to the source. -/
structure Diagnostic.Located (source : List Char) (d : Diagnostic) : Prop where
  /-- The span is that of a token, or it is empty and at the end where there is no origin. -/
  token : (∃ t ∈ tokenize source, d.span = t.span) ∨
    d.span = ⟨byteLength source, 0⟩ ∧ d.problem = .grammar .originMissing
  /-- The line counts the line feeds before the span that no string literal takes along. -/
  line : d.line + takenBefore d.span.start source = 1 + feedsBefore d.span.start source
  /-- It counts all of them where every token there with a line feed is an end of line. -/
  exact : d.line = 1 + feedsBefore d.span.start source ↔
    ∀ t ∈ tokenize source, t.start < d.span.start → '\n' ∈ t.text → t.kind = .newline

theorem takenBefore_eq_zero_iff {n : Nat} {source : List Char} : takenBefore n source = 0 ↔
    ∀ t ∈ tokenize source, t.start < n → '\n' ∈ t.text → t.kind = .newline := by
  simp only [takenBefore, List.countP_eq_zero, Bool.and_eq_true, decide_eq_true_eq, not_and,
    Token.takesFeed, Piece.takesFeed, Token.piece, bne_iff_ne, List.contains_iff_mem]
  exact forall₂_congr fun t _ => forall_congr' fun _ => ⟨fun h feed => by_contra (h · feed),
    fun h other feed => other (h feed)⟩

theorem Diagnostic.located_of_line {source : List Char} {d : Diagnostic}
    (token : (∃ t ∈ tokenize source, d.span = t.span) ∨
      d.span = ⟨byteLength source, 0⟩ ∧ d.problem = .grammar .originMissing)
    (line : d.line + takenBefore d.span.start source = 1 + feedsBefore d.span.start source) :
    d.Located source where
  token := token
  line := line
  exact := by
    rw [← takenBefore_eq_zero_iff]
    omega

/-- A diagnostic is filed under the line that it points at. -/
theorem located_of_assemble {source : List Char} {d : Diagnostic}
    (failed : assemble source = .error d) : d.Located source := by
  rcases blamed_of_assemble failed with ⟨line, inside, number, t, member, span⟩ | rfl
  · obtain ⟨before, after, split, place⟩ := Line.exists_of_mem_ofText inside member
    have own : t ∈ tokenize source := by simp [split]
    refine Diagnostic.located_of_line (.inl ⟨t, own, span⟩) ?_
    have start : d.span.start = t.start := congrArg Span.start span
    rw [number, place, start, start_of_tokenize split, feedsBefore_eq split, Nat.add_assoc]
  · refine Diagnostic.located_of_line (.inr ⟨rfl, rfl⟩) ?_
    have feeds := feedsBefore_eq (List.append_nil (tokenize source)).symm
    rw [← Piece.ofText, Piece.join_ofText] at feeds
    rw [Line.length_ofText, feeds, Nat.add_assoc]

/-- An unknown instruction on the fourth line, below a string literal that opens at the end of its
line. -/
def strayLineSource : List Char := ".ORIG x3000\n.STRINGZ \"\na\"\nBAD BAD".toList

theorem located_strayLine :
    ∃ d, assemble strayLineSource = .error d ∧ d.Located strayLineSource :=
  ⟨_, rfl, located_of_assemble rfl⟩

/-- The diagnostic is filed under the third line. -/
theorem line_strayLine : ∃ d, assemble strayLineSource = .error d ∧
    d.line ≠ 1 + feedsBefore d.span.start strayLineSource :=
  ⟨_, rfl, by decide⟩

end LC3
