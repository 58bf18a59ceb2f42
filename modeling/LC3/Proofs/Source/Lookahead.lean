import LC3.Proofs.Source.Pieces
import LC3.Proofs.Source.Quoted

/-!
How far a token depends on what follows it. A token that ends in front of some text ends as well in
front of a text that begins in the same way, in front of a line feed and at the end of the source.
The only exception is a quote at the end, which takes a line feed right behind it along. Main
statement: `of_append_congr`.
-/

namespace LC3
namespace Lexeme

/-- How a token goes on behind its first character. -/
inductive Rule where
  | alone (kind : TokenKind)
  | run (kind : TokenKind) (p : Char → Bool)
  | signed (kind : TokenKind) (signs : Char → Bool)
  | quoted

/-- The rule for a token that starts with `c`, which depends on no more than the next character. -/
def rule (c : Char) (next? : Option Char) : Rule :=
  if c = ';' then .run .comment (· != '\n')
  else if c = '\n' then .alone .newline
  else if isSeparator c then .run .whitespace isSeparator
  else if c = ':' then .alone .colon
  else if (c = 'x' ∨ c = 'X') ∧ next?.any fun d => isHexDigit d || d == '-' then
    .signed .hexLiteral (· == '-')
  else if c = '0' ∧ next?.any fun d => d == 'x' || d == 'X' then .run .hexLiteral isNameChar
  else if c.isDigit then .run .decimalLiteral isNameChar
  else if isNameChar c then .run .identifier isNameChar
  else if c = '#' then .signed .decimalLiteral fun d => d == '-' || d == '+'
  else if c = '.' then .run .directive isNameChar
  else if c = '"' then .quoted
  else .alone .unknown

namespace Rule

def lexeme (rest : List Char) : Rule → Lexeme
  | alone kind => ⟨kind, 0⟩
  | run kind p => ⟨kind, Lexeme.run p rest⟩
  | signed kind signs => ⟨kind, signedRun signs rest⟩
  | quoted => ⟨.stringLiteral (Lexeme.quoted 0 rest).1, (Lexeme.quoted 0 rest).2⟩

/-- A line feed ends the token. -/
def endsAtFeed : Rule → Bool
  | run _ p => !p '\n'
  | signed _ signs => !signs '\n'
  | _ => true

end Rule

theorem of_eq (c : Char) (rest : List Char) : of c rest = (rule c rest.head?).lexeme rest := by
  have test (p : Char → Bool) : startsWith p rest = rest.head?.any p := by cases rest <;> rfl
  unfold of rule
  simp only [test, apply_ite (Rule.lexeme rest)]
  rfl

theorem endsAtFeed_rule (c : Char) (next? : Option Char) : (rule c next?).endsAtFeed = true := by
  have name : isNameChar '\n' = false := rfl
  have blank : isSeparator '\n' = false := rfl
  unfold rule
  simp only [apply_ite Rule.endsAtFeed]
  simp [Rule.endsAtFeed, name, blank]

/-- What `rest'` begins with, if that is no line feed, is what `rest` begins with. -/
def Likewise (rest rest' : List Char) : Prop := ∀ c ∈ rest'.head?, c = '\n' ∨ c ∈ rest.head?

variable {p : Char → Bool} {c d : Char} {text rest rest' : List Char}

theorem Likewise.startsWith (h : Likewise rest rest') (feed : p '\n' = false)
    (stop : startsWith p rest = false) : startsWith p rest' = false := by
  cases rest' with
  | nil => rfl
  | cons d more' =>
      rcases h d rfl with rfl | first
      · exact feed
      · cases rest with
        | nil => cases first
        | cons e more =>
            obtain rfl := Option.some.inj first
            exact stop

theorem run_eq_zero_iff : run p text = 0 ↔ startsWith p text = false := by
  cases text with
  | nil => exact iff_of_true rfl rfl
  | cons c text => simp [run, startsWith, List.takeWhile_cons]

theorem run_le : run p text ≤ text.length := (List.takeWhile_prefix p).length_le

theorem run_append_eq (text rest : List Char) :
    run p (text ++ rest) = if run p text = text.length then text.length + run p rest
      else run p text := by
  unfold run
  rw [List.takeWhile_append]
  split
  · rw [List.length_append]
  · rfl

theorem run_append_congr (feed : p '\n' = false) (like : Likewise rest rest')
    (h : run p (text ++ rest) ≤ text.length) : run p (text ++ rest') = run p (text ++ rest) := by
  rw [run_append_eq] at h ⊢
  rw [run_append_eq]
  split
  · next whole =>
    rw [if_pos whole] at h
    have none : run p rest = 0 := by omega
    rw [none, run_eq_zero_iff.mpr (like.startsWith feed (run_eq_zero_iff.mp none))]
  · rfl

theorem signedRun_le : signedRun p text ≤ text.length := by
  cases text with
  | nil => exact Nat.le_refl 0
  | cons c text =>
      rw [signedRun]
      split
      · exact Nat.succ_le_succ run_le
      · exact run_le

theorem signedRun_eq_zero_iff : signedRun p text = 0 ↔
    startsWith p text = false ∧ startsWith isNameChar text = false := by
  cases text with
  | nil => exact iff_of_true rfl ⟨rfl, rfl⟩
  | cons c text =>
      rw [signedRun, ← run_eq_zero_iff (p := isNameChar), startsWith]
      split <;> simp_all

theorem signedRun_append_congr (feed : p '\n' = false) (like : Likewise rest rest')
    (h : signedRun p (text ++ rest) ≤ text.length) :
    signedRun p (text ++ rest') = signedRun p (text ++ rest) := by
  cases text with
  | nil =>
      have zero : signedRun p rest = 0 := Nat.le_zero.mp h
      obtain ⟨sign, name⟩ := signedRun_eq_zero_iff.mp zero
      rw [List.nil_append, List.nil_append, zero]
      exact signedRun_eq_zero_iff.mpr ⟨like.startsWith feed sign, like.startsWith rfl name⟩
  | cons c text =>
      simp only [List.cons_append, signedRun] at h ⊢
      split
      · next sign =>
        rw [if_pos sign] at h
        rw [run_append_congr rfl like (Nat.le_of_succ_le_succ h)]
      · next sign =>
        rw [if_neg sign] at h
        have whole : run isNameChar (c :: text ++ rest) ≤ (c :: text).length := h
        exact run_append_congr rfl like whole

/-- A literal that ends within a text does so whatever the text is followed by in this way. -/
theorem Quoted.append_congr {result : Bool × Nat} (h : Quoted (text ++ rest) result)
    (like : Likewise rest rest') (inside : result.2 ≤ text.length) :
    Quoted (text ++ rest') result := by
  generalize whole : text ++ rest = source at h
  cases h with
  | @closed body after valid inner =>
      have quote : body ++ '"' :: after = (body ++ ['"']) ++ after := by simp
      obtain ⟨more, rfl⟩ : body ++ ['"'] <+: text :=
        List.prefix_of_prefix_length_le (quote ▸ List.prefix_append ..)
          (whole ▸ List.prefix_append ..) (by simpa using inside)
      have same : body ++ ['"'] ++ more ++ rest' = body ++ '"' :: (more ++ rest') := by simp
      rw [same]
      exact .closed valid inner
  | @opened line after some inner ends opened =>
      obtain ⟨more, rfl⟩ : line <+: text :=
        List.prefix_of_prefix_length_le (List.prefix_append ..) (whole ▸ List.prefix_append ..)
          inside
      rw [List.append_assoc, List.append_cancel_left_eq] at whole
      subst whole
      have later : LineEnd (more ++ rest') := by
        cases more with
        | nil =>
            intro c first
            rcases like c first with feed | same
            · exact feed
            · exact ends c same
        | cons e more => exact fun c first => ends c first
      rw [List.append_assoc]
      exact .opened some inner later opened

theorem quoted_le : (quoted 0 text).2 ≤ text.length := by
  by_cases some : text = []
  · subst some
    exact Nat.le_refl 0
  · have spec := quoted_spec some
    generalize quoted 0 text = result at spec
    cases spec <;> simp

theorem quoted_append_congr (like : Likewise rest rest') (some : text ++ rest ≠ [])
    (h : (quoted 0 (text ++ rest)).2 ≤ text.length) :
    quoted 0 (text ++ rest') = quoted 0 (text ++ rest) :=
  ((quoted_spec some).append_congr like h).quoted_eq

theorem Rule.more_le (r : Rule) (rest : List Char) : (r.lexeme rest).more ≤ rest.length := by
  cases r with
  | alone kind => exact Nat.zero_le _
  | run kind p => exact run_le
  | signed kind signs => exact signedRun_le
  | quoted => exact quoted_le

theorem Rule.lexeme_append_congr {r : Rule} (feed : r.endsAtFeed = true)
    (like : Likewise rest rest') (some : r = .quoted → text ++ rest ≠ [])
    (h : (r.lexeme (text ++ rest)).more ≤ text.length) :
    r.lexeme (text ++ rest') = r.lexeme (text ++ rest) := by
  cases r with
  | alone kind => rfl
  | run kind p =>
      have stop : p '\n' = false := by simpa [endsAtFeed] using feed
      exact congrArg (Lexeme.mk kind) (run_append_congr stop like h)
  | signed kind signs =>
      have stop : signs '\n' = false := by simpa [endsAtFeed] using feed
      exact congrArg (Lexeme.mk kind) (signedRun_append_congr stop like h)
  | quoted =>
      have same := quoted_append_congr like (some rfl) h
      simp only [lexeme, same]

theorem isNameChar_of_isHexDigit (h : isHexDigit c = true) : isNameChar c = true := by
  unfold isHexDigit Numeral.digit? at h
  simp only at h
  split at h
  · next digit =>
    have digit : c.isDigit = true := by simpa [Char.isDigit, Char.le_def] using digit
    simp [isNameChar, Char.isAlphanum, digit]
  · split at h
    · next lower =>
      have lower : c.isLower = true := by simpa [Char.isLower, Char.le_def] using lower
      simp [isNameChar, Char.isAlphanum, Char.isAlpha, lower]
    · split at h
      · next upper =>
        have upper : c.isUpper = true := by simpa [Char.isUpper, Char.le_def] using upper
        simp [isNameChar, Char.isAlphanum, Char.isAlpha, upper]
      · cases h

/-- A token of one character does not go on, and so does not in front of the other text. -/
theorem rule_congr (like : Likewise rest rest') (h : (of c rest).more = 0) :
    rule c rest'.head? = rule c rest.head? := by
  have test (p : Char → Bool) (text : List Char) : text.head?.any p = startsWith p text := by
    cases text <;> rfl
  have hex : ¬ ((c = 'x' ∨ c = 'X') ∧
      startsWith (fun d => isHexDigit d || d == '-') rest = true) := by
    rintro ⟨mark, next⟩
    have lexeme : of c rest = ⟨.hexLiteral, signedRun (· == '-') rest⟩ := by
      rcases mark with rfl | rfl <;> simp [of, next, isSeparator]
    rw [lexeme] at h
    obtain ⟨sign, name⟩ := signedRun_eq_zero_iff.mp h
    cases rest with
    | nil => cases next
    | cons d rest =>
        have digit := Bool.eq_false_of_not_eq_true fun own =>
          Bool.eq_false_iff.mp name (isNameChar_of_isHexDigit own)
        simp only [startsWith] at sign next
        simp [digit, sign] at next
  have zero : ¬ (c = '0' ∧ startsWith (fun d => d == 'x' || d == 'X') rest = true) := by
    rintro ⟨rfl, next⟩
    have lexeme : of '0' rest = ⟨.hexLiteral, run isNameChar rest⟩ := by
      simp [of, next, isSeparator]
    rw [lexeme] at h
    have name := run_eq_zero_iff.mp h
    cases rest with
    | nil => cases next
    | cons d rest =>
        simp only [startsWith, Bool.or_eq_true, beq_iff_eq] at next
        rcases next with rfl | rfl <;> cases name
  have other {q : Prop} {p : Char → Bool} (feed : p '\n' = false)
      (none : ¬ (q ∧ startsWith p rest = true)) : ¬ (q ∧ startsWith p rest' = true) := by
    rintro ⟨first, next⟩
    have stop := Bool.eq_false_of_not_eq_true fun own => none ⟨first, own⟩
    rw [like.startsWith feed stop] at next
    cases next
  unfold rule
  simp only [test, if_neg hex, if_neg zero, if_neg (other rfl hex), if_neg (other rfl zero)]

theorem eq_of_rule_eq_quoted {next? : Option Char} (h : rule c next? = .quoted) : c = '"' := by
  by_contra other
  simp only [rule, other, if_false, ite_eq_iff, reduceCtorEq, and_false, or_false] at h

theorem of_append_congr (like : Likewise rest rest') (quote : c = '"' → text ++ rest ≠ [])
    (h : (of c (text ++ rest)).more ≤ text.length) : of c (text ++ rest') = of c (text ++ rest) := by
  have same : rule c (text ++ rest').head? = rule c (text ++ rest).head? := by
    cases text with
    | nil => exact rule_congr like (Nat.le_zero.mp h)
    | cons d text => rfl
  rw [of_eq] at h
  rw [of_eq, of_eq, same]
  exact Rule.lexeme_append_congr (endsAtFeed_rule ..) like
    (fun quoted => quote (eq_of_rule_eq_quoted quoted)) h

end Lexeme
end LC3
