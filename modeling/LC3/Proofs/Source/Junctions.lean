import LC3.Proofs.Source.Cutting

/-!
Where tokens meet. The first character settles how a token goes on, and only behind a name character
does the next one count. So a text begins with one token, a blank, a line feed or a colon ends in
front of anything else, and a token in front of a name is one in front of any other name. Main
statements: `Before.unique`, `cut_of_separates`, `Before.of_name`.
-/

namespace LC3
namespace Lexeme

/-- The rules for tokens that start with a character. -/
inductive Starts : Char → Rule → Prop
  | comment : Starts ';' (.run .comment (· != '\n'))
  | newline : Starts '\n' (.alone .newline)
  | blank {c} (own : isSeparator c = true) : Starts c (.run .whitespace isSeparator)
  | colon : Starts ':' (.alone .colon)
  | marked {c} (own : isNameChar c = true) : Starts c (.signed .hexLiteral (· == '-'))
  | hexadecimal {c} (own : isNameChar c = true) : Starts c (.run .hexLiteral isNameChar)
  | digit {c} : Starts c (.run .decimalLiteral isNameChar)
  | name {c} (own : isNameChar c = true) : Starts c (.run .identifier isNameChar)
  | number : Starts '#' (.signed .decimalLiteral fun d => d == '-' || d == '+')
  | directive : Starts '.' (.run .directive isNameChar)
  | quote : Starts '"' .quoted
  | unknown {c} (other : isNameChar c = false) : Starts c (.alone .unknown)

variable {p q : Char → Bool} {c : Char} {text rest rest' : List Char}

theorem starts_rule (c : Char) (next? : Option Char) : Starts c (rule c next?) := by
  have step {p : Prop} [Decidable p] {r r' : Rule} (first : p → Starts c r)
      (others : ¬ p → Starts c r') : Starts c (if p then r else r') := iteInduction first others
  unfold rule
  refine step (fun comment => comment ▸ .comment) fun _ => ?_
  refine step (fun newline => newline ▸ .newline) fun _ => ?_
  refine step .blank fun _ => ?_
  refine step (fun colon => colon ▸ .colon) fun _ => ?_
  refine step (fun mark => .marked ?_) fun _ => ?_
  · rcases mark.1 with rfl | rfl <;> rfl
  refine step (fun zero => .hexadecimal (zero.1 ▸ rfl)) fun _ => ?_
  refine step (fun _ => .digit) fun _ => ?_
  refine step .name fun other => ?_
  refine step (fun number => number ▸ .number) fun _ => ?_
  refine step (fun directive => directive ▸ .directive) fun _ => ?_
  refine step (fun quote => quote ▸ .quote) fun _ => ?_
  exact .unknown (Bool.eq_false_of_not_eq_true other)

theorem rule_of_isSeparator (own : isSeparator c = true) (next? : Option Char) :
    rule c next? = .run .whitespace isSeparator := by
  have comment : c ≠ ';' := by rintro rfl; cases own
  have feed : c ≠ '\n' := by rintro rfl; cases own
  simp only [rule, comment, feed, own, if_true, if_false]

/-- The next character counts behind a name character only. -/
theorem rule_eq_of_not_isNameChar (other : isNameChar c = false) (next? next'? : Option Char) :
    rule c next? = rule c next'? := by
  have mark : ¬ (c = 'x' ∨ c = 'X') := by rintro (rfl | rfl) <;> cases other
  have zero : c ≠ '0' := by rintro rfl; cases other
  simp only [rule, mark, zero, false_and, if_false]

/-- A run that ends with a text does not go on behind it. -/
theorem startsWith_of_run (whole : run p (text ++ rest) = text.length) :
    startsWith p rest = false := by
  rw [run_append_eq] at whole
  split at whole
  · exact run_eq_zero_iff.mp (by omega)
  · next short => exact absurd whole short

theorem startsWith_of_signedRun (whole : signedRun p (text ++ rest) = text.length) :
    startsWith isNameChar rest = false := by
  cases text with
  | nil => exact (signedRun_eq_zero_iff.mp whole).2
  | cons c text =>
      rw [List.cons_append, signedRun] at whole
      split at whole
      · exact startsWith_of_run (Nat.succ.inj whole)
      · have whole : run isNameChar (c :: text ++ rest) = (c :: text).length := whole
        exact startsWith_of_run whole

theorem startsWith_mono (sub : ∀ d, q d = true → p d = true) (none : startsWith p rest = false) :
    startsWith q rest = false := by
  cases rest with
  | nil => rfl
  | cons d rest =>
      exact Bool.eq_false_of_not_eq_true fun own => Bool.eq_false_iff.mp none (sub d own)

/-- Where a name follows a literal, its closing quote is in front of the name. -/
theorem quoted_eq_of_name (whole : (quoted 0 (text ++ rest)).2 = text.length)
    (name : startsWith isNameChar rest = true) :
    quoted 0 (text ++ rest') = quoted 0 (text ++ rest) := by
  have some : text ++ rest ≠ [] := by
    cases rest with
    | nil => cases name
    | cons d rest => simp
  have spec := quoted_spec some
  generalize quoted 0 (text ++ rest) = result at spec whole
  generalize same : text ++ rest = source at spec
  cases spec with
  | @closed body after inside inner =>
      have quote : text ++ rest = (body ++ ['"']) ++ after := by simp [same]
      obtain ⟨rfl, rfl⟩ := List.append_inj quote (by simpa using whole.symm)
      have later : body ++ ['"'] ++ rest' = body ++ '"' :: rest' := by simp
      rw [later]
      exact (Quoted.closed inside inner).quoted_eq
  | @opened line after nonempty inner ends opened =>
      obtain ⟨rfl, rfl⟩ := List.append_inj same whole.symm
      rcases ends.cases with rfl | ⟨rest, rfl⟩ <;> cases name

/-- What is no name character makes no difference to a name before it, unless it is a dash. -/
theorem of_append_of_ends (kind : (of c text).kind = .identifier ∨ (of c text).kind = .hexLiteral)
    (name : startsWith isNameChar rest = false) (dash : startsWith (· == '-') rest = false) :
    of c (text ++ rest) = of c text := by
  have hex : startsWith (fun d => isHexDigit d || d == '-') rest = false := by
    cases rest with
    | nil => rfl
    | cons d rest =>
        refine Bool.or_eq_false_iff.mpr ⟨Bool.eq_false_of_not_eq_true fun own => ?_, dash⟩
        exact Bool.eq_false_iff.mp name (isNameChar_of_isHexDigit own)
  have mark : startsWith (fun d => d == 'x' || d == 'X') rest = false := by
    refine startsWith_mono (fun d own => ?_) name
    rw [Bool.or_eq_true, beq_iff_eq, beq_iff_eq] at own
    rcases own with rfl | rfl <;> rfl
  unfold of at kind ⊢
  simp only [run_append name, signedRun_append dash name, startsWith_append hex,
    startsWith_append mark]
  by_cases comment : c = ';'
  · subst comment
    rcases kind with kind | kind <;> cases kind
  by_cases number : c = '#'
  · subst number
    rcases kind with kind | kind <;> cases kind
  by_cases string : c = '"'
  · subst string
    rcases kind with kind | kind <;> cases kind
  by_cases blank : isSeparator c = true
  · have feed : c ≠ '\n' := by rintro rfl; cases blank
    simp only [comment, feed, blank, if_true, if_false] at kind
    rcases kind with kind | kind <;> cases kind
  simp only [comment, number, string, blank, Bool.false_eq_true, if_false]

theorem startsWith_congr (same : rest'.head? = rest.head?) :
    startsWith p rest' = startsWith p rest := by
  cases rest <;> cases rest' <;> simp_all [startsWith]

theorem startsWith_cons_append (c : Char) (text rest : List Char) :
    startsWith p (c :: text ++ rest) = p c := rfl

end Lexeme

namespace Piece

variable {p q : Piece} {rest rest' : List Char}

/-- A text begins with one token. -/
theorem Before.unique (h : p.Before rest) (g : q.Before rest')
    (same : p.text ++ rest = q.text ++ rest') : p = q := by
  obtain ⟨kind, text⟩ := p
  obtain ⟨kind', text'⟩ := q
  obtain ⟨c, more, rfl, lexeme⟩ := h
  obtain ⟨d, others, rfl, lexeme'⟩ := g
  obtain ⟨rfl, follow⟩ := List.cons.inj same
  have follow : more ++ rest = others ++ rest' := follow
  rw [follow, lexeme'] at lexeme
  obtain ⟨rfl, length⟩ := Lexeme.mk.inj lexeme
  rw [(List.append_inj follow length.symm).1]

/-- A piece goes on by the rule for its first character, to its end. -/
theorem Before.exists_rule (h : p.Before rest) : ∃ c more r,
    p = ⟨(r.lexeme (more ++ rest)).kind, c :: more⟩ ∧ Lexeme.Starts c r ∧
      Lexeme.rule c (more ++ rest).head? = r ∧ (r.lexeme (more ++ rest)).more = more.length := by
  obtain ⟨kind, text⟩ := p
  obtain ⟨c, more, rfl, lexeme⟩ := h
  rw [Lexeme.of_eq] at lexeme
  obtain ⟨rfl, length⟩ := Lexeme.mk.inj lexeme
  exact ⟨c, more, _, rfl, Lexeme.starts_rule .., rfl, length⟩

theorem before_of_rule {c : Char} {more : List Char} {r : Lexeme.Rule} {kind : TokenKind}
    (rule : Lexeme.rule c (more ++ rest).head? = r)
    (lexeme : r.lexeme (more ++ rest) = ⟨kind, more.length⟩) :
    (⟨kind, c :: more⟩ : Piece).Before rest :=
  ⟨c, more, rfl, by rw [Lexeme.of_eq, rule, lexeme]⟩

/-- A blank, a line feed or a colon. -/
def Separates (p : Piece) : Prop :=
  p.kind = .whitespace ∨ p.kind = .newline ∨ p.kind = .colon

instance (p : Piece) : Decidable p.Separates := inferInstanceAs (Decidable (_ ∨ _))

/-- What separates tokens ends in front of anything that is no blank. -/
theorem Before.of_separates (h : p.Before rest) (separates : p.Separates)
    (other : Lexeme.startsWith isSeparator rest' = false) : p.Before rest' := by
  obtain ⟨c, more, r, rfl, starts, rule, length⟩ := h.exists_rule
  cases starts with
  | newline | colon => exact before_of_rule rfl (congrArg (Lexeme.mk _) length)
  | blank own =>
      have blanks : Lexeme.run isSeparator (more ++ rest) = more.length := length
      have inner : Lexeme.run isSeparator more = more.length := by
        rw [← Lexeme.run_append (Lexeme.startsWith_of_run blanks), blanks]
      exact before_of_rule (Lexeme.rule_of_isSeparator own _)
        (congrArg (Lexeme.mk _) ((Lexeme.run_append other).trans inner))
  | unknown | comment | marked | hexadecimal | digit | name | number | directive | quote =>
      rcases separates with kind | kind | kind <;> cases kind

/-- Where the last token of a text separates, the text is cut the same in front of anything that is
no blank. -/
theorem cut_of_separates {before : List Char}
    (last : ∀ p ∈ (ofText before).getLast?, p.Separates)
    (other : Lexeme.startsWith isSeparator rest = false) : Cut rest (ofText before) := by
  have cut := cut_ofText before
  rcases List.eq_nil_or_concat (ofText before) with none | ⟨front, p, split⟩
  · rw [none]
    trivial
  rw [split, List.concat_eq_append] at cut last ⊢
  obtain ⟨front, own, -⟩ := cut_append.mp cut
  refine cut_append.mpr ⟨?_, own.of_separates (last p (by simp)) other, trivial⟩
  obtain ⟨c, more, text, -⟩ := own
  refine front.congr (fun d first => .inr ?_) fun none => ?_
  · simpa [text] using first
  · simp [text] at none

theorem startsWith_isSeparator_of_name (name : Lexeme.startsWith isNameChar rest = true) :
    Lexeme.startsWith isSeparator rest = false := by
  cases rest with
  | nil => rfl
  | cons d rest =>
      rw [Lexeme.startsWith, isSeparator]
      by_contra blank
      simp only [Bool.not_eq_false, Bool.or_eq_true, beq_iff_eq] at blank
      rcases blank with ((rfl | rfl) | rfl) | rfl <;> cases name

/-- A token in front of a name is one in front of any other name, as it does not take a name
along. -/
theorem Before.of_name (h : p.Before rest) (name : Lexeme.startsWith isNameChar rest = true)
    (name' : Lexeme.startsWith isNameChar rest' = true) : p.Before rest' := by
  by_cases separates : p.Separates
  · exact h.of_separates separates (startsWith_isSeparator_of_name name')
  obtain ⟨c, more, r, rfl, starts, rule, length⟩ := h.exists_rule
  have munch {p : Char → Bool} (sub : ∀ d, isNameChar d = true → p d = true) :
      Lexeme.run p (more ++ rest) ≠ more.length := fun whole =>
    absurd (Lexeme.startsWith_mono sub (Lexeme.startsWith_of_run whole)) (by simp [name])
  cases starts with
  | blank => exact absurd (.inl rfl) separates
  | newline => exact absurd (.inr (.inl rfl)) separates
  | colon => exact absurd (.inr (.inr rfl)) separates
  | comment =>
      refine absurd length (munch fun d own => ?_)
      rw [bne_iff_ne]
      rintro rfl
      cases own
  | hexadecimal | digit | name | directive => exact absurd length (munch fun _ own => own)
  | marked | number => exact absurd (Lexeme.startsWith_of_signedRun length) (by simp [name])
  | quote =>
      have same : Lexeme.quoted 0 (more ++ rest') = Lexeme.quoted 0 (more ++ rest) :=
        Lexeme.quoted_eq_of_name length name
      have lexeme : Lexeme.Rule.lexeme (more ++ rest') .quoted =
          Lexeme.Rule.lexeme (more ++ rest) .quoted := by
        simp only [Lexeme.Rule.lexeme, same]
      exact before_of_rule rfl (lexeme.trans (congrArg (Lexeme.mk _) length))
  | unknown other =>
      exact before_of_rule ((Lexeme.rule_eq_of_not_isNameChar other _ _).trans rule)
        (congrArg (Lexeme.mk _) length)

/-- A token in front of a text is one in front of any other that starts with the same character. -/
theorem Before.of_head (h : p.Before rest) (same : rest'.head? = rest.head?) : p.Before rest' := by
  by_cases none : rest = []
  · subst none
    rwa [List.head?_eq_none_iff.mp same]
  obtain ⟨c, more, text, lexeme⟩ := h
  refine ⟨c, more, text, ?_⟩
  have like : Lexeme.Likewise rest rest' := fun d first => .inr (same ▸ first)
  rw [Lexeme.of_append_congr like (fun _ => by simp [none]) (by rw [lexeme]), lexeme]

theorem Before.startsWith_text (h : p.Before rest)
    (name : p.kind = .identifier ∨ p.kind = .hexLiteral) (rest' : List Char) :
    Lexeme.startsWith isNameChar (p.text ++ rest') = true := by
  obtain ⟨c, more, r, rfl, starts, -⟩ := h.exists_rule
  rw [Lexeme.startsWith_cons_append]
  cases starts with
  | marked own | hexadecimal own | name own => exact own
  | comment | newline | blank | colon | digit | number | directive | quote | unknown =>
      rcases name with kind | kind <;> cases kind

/-- A name takes all name characters along. -/
theorem Before.startsWith_isNameChar (h : p.Before rest)
    (name : p.kind = .identifier ∨ p.kind = .hexLiteral) :
    Lexeme.startsWith isNameChar rest = false := by
  obtain ⟨c, more, r, rfl, starts, -, length⟩ := h.exists_rule
  cases starts with
  | hexadecimal | name => exact Lexeme.startsWith_of_run length
  | marked => exact Lexeme.startsWith_of_signedRun length
  | comment | newline | blank | colon | digit | number | directive | quote | unknown =>
      rcases name with kind | kind <;> cases kind

/-- A name ends in front of anything that is no name character. Where it is a single x it would take
a dash along as well. -/
theorem Before.of_ends (h : p.Before []) (name : p.kind = .identifier ∨ p.kind = .hexLiteral)
    (ends : Lexeme.startsWith isNameChar rest = false)
    (dash : Lexeme.startsWith (· == '-') rest = false) : p.Before rest := by
  obtain ⟨kind, text⟩ := p
  obtain ⟨c, more, rfl, lexeme⟩ := h
  rw [List.append_nil] at lexeme
  exact ⟨c, more, rfl, (Lexeme.of_append_of_ends (lexeme ▸ name) ends dash).trans lexeme⟩

/-- No token that is known starts with a dash. -/
theorem Before.startsWith_dash (h : p.Before rest) (known : p.kind ≠ .unknown)
    (rest' : List Char) : Lexeme.startsWith (· == '-') (p.text ++ rest') = false := by
  obtain ⟨kind, text⟩ := p
  obtain ⟨c, more, rfl, lexeme⟩ := h
  rw [Lexeme.startsWith_cons_append]
  by_contra dash
  obtain rfl : c = '-' := by simpa using dash
  exact known (congrArg Lexeme.kind lexeme).symm

end Piece
end LC3
