import Mathlib
import LC3.Source.Lexeme

/-!
String literals. Behind its opening quote a literal ends with the first quote that no backslash has
taken along, or at the end of its line where there is none. Main statement:
`quoted_spec`.
-/

namespace LC3

/-- What may stand between the quotes of a string literal: a backslash takes the character after it
along, and no other quote stands there. -/
inductive Literal.Body : List Char → Prop
  | nil : Body []
  | plain {c text} (quote : c ≠ '"') (backslash : c ≠ '\\') (rest : Body text) : Body (c :: text)
  | pair {c text} (rest : Body text) : Body ('\\' :: c :: text)

/-- A quote in the line closes a literal that has the line behind its opening quote. -/
def Literal.Closes (line : List Char) : Prop :=
  ∃ body rest, Body body ∧ line = body ++ '"' :: rest

namespace Lexeme

/-- Nothing more stands on the line: the text ends or goes on with a line feed. -/
def LineEnd (text : List Char) : Prop := ∀ c ∈ text.head?, c = '\n'

/-- A literal has its closing quote or the rest of its line, and that is all there can be. -/
inductive Quoted : List Char → Bool × Nat → Prop
  | closed {body rest} (inside : Literal.Body body) (inner : '\n' ∉ (body ++ ['"']).tail) :
      Quoted (body ++ '"' :: rest) (true, body.length + 1)
  | opened {line after} (some : line ≠ []) (inner : '\n' ∉ line.tail) (ends : LineEnd after)
      (opened : ¬ Literal.Closes line) : Quoted (line ++ after) (false, line.length)

variable {n : Nat} {c d : Char} {line body rest after : List Char}

theorem startsWith_newline_of_not_mem (some : line ≠ []) (inner : '\n' ∉ line) :
    startsWith (· == '\n') (line ++ after) = false := by
  obtain ⟨c, more, rfl⟩ := List.exists_cons_of_ne_nil some
  have first : c ≠ '\n' := fun same => inner (same ▸ List.mem_cons_self)
  simpa [startsWith] using first

theorem LineEnd.cases (h : LineEnd after) : after = [] ∨ ∃ rest, after = '\n' :: rest := by
  cases after with
  | nil => exact .inl rfl
  | cons c rest =>
      obtain rfl := h c rfl
      exact .inr ⟨rest, rfl⟩

/-- A body and the quote behind it are read to the end. The first character may be anything. -/
theorem quoted_of_body (h : Literal.Body body) (inner : '\n' ∉ (body ++ ['"']).tail) :
    quoted n (body ++ '"' :: rest) = (true, n + body.length + 1) := by
  have quote (text : List Char) : (text ++ ['"']) ++ rest = text ++ '"' :: rest := by simp
  induction h generalizing n with
  | nil => rfl
  | @plain c text notQuote notBackslash _ ih =>
      have own : '\n' ∉ text ++ ['"'] := inner
      have next : startsWith (· == '\n') (text ++ '"' :: rest) = false :=
        quote text ▸ startsWith_newline_of_not_mem (by simp) own
      rw [List.cons_append, quoted.eq_4 _ _ _ notQuote fun _ _ same => absurd same notBackslash,
        next, if_neg Bool.false_ne_true, ih fun member => own (List.mem_of_mem_tail member),
        List.length_cons]
      ring_nf
  | @pair c text _ ih =>
      have own : '\n' ∉ c :: (text ++ ['"']) := inner
      obtain ⟨first, own⟩ := List.ne_and_not_mem_of_not_mem_cons own
      have next : startsWith (· == '\n') (text ++ '"' :: rest) = false :=
        quote text ▸ startsWith_newline_of_not_mem (by simp) own
      rw [List.cons_append, List.cons_append, quoted.eq_3, if_neg first.symm, next,
        if_neg Bool.false_ne_true, ih fun member => own (List.mem_of_mem_tail member),
        List.length_cons, List.length_cons]
      ring_nf

theorem mem_of_startsWith_newline (h : startsWith (· == '\n') rest = true) : '\n' ∈ rest := by
  cases rest with
  | nil => cases h
  | cons c rest =>
      obtain rfl : c = '\n' := by simpa [startsWith] using h
      exact List.mem_cons_self

/-- A literal that its line does not close takes the rest of the line and no more. -/
theorem quoted_of_open (some : line ≠ []) (inner : '\n' ∉ line.tail) (ends : LineEnd after)
    (opened : ¬ Literal.Closes line) :
    quoted n (line ++ after) = (false, n + line.length) := by
  fun_induction quoted n line with
  | case1 => exact absurd rfl some
  | case2 n rest => exact absurd ⟨[], rest, .nil, rfl⟩ opened
  | case3 n rest => exact absurd List.mem_cons_self inner
  | case4 n d rest _ feed =>
      exact absurd (List.mem_cons_of_mem d (mem_of_startsWith_newline feed)) inner
  | case5 n d rest other _ ih =>
      rw [List.cons_append, List.cons_append, quoted.eq_3, if_neg other]
      by_cases last : rest = []
      · subst last
        obtain rfl | ⟨more, rfl⟩ := ends.cases <;> rfl
      · have own : '\n' ∉ rest := fun member => inner (List.mem_cons_of_mem d member)
        rw [startsWith_newline_of_not_mem last own, if_neg Bool.false_ne_true,
          ih last (fun member => own (List.mem_of_mem_tail member)), List.length_cons,
          List.length_cons]
        · ring_nf
        · rintro ⟨body, after, inside, rfl⟩
          exact opened ⟨_, after, inside.pair, rfl⟩
  | case6 n c rest _ _ feed => exact absurd (mem_of_startsWith_newline feed) inner
  | case7 n c rest notQuote pair _ ih =>
      by_cases last : rest = []
      · subst last
        by_cases backslash : c = '\\'
        · subst backslash
          obtain rfl | ⟨more, rfl⟩ := ends.cases <;> rfl
        · rw [List.singleton_append, quoted.eq_4 _ _ _ notQuote
            fun _ _ same => absurd same backslash]
          obtain rfl | ⟨more, rfl⟩ := ends.cases <;> rfl
      · have own : '\n' ∉ rest := inner
        have backslash : c ≠ '\\' := by
          rintro rfl
          obtain ⟨d, more, rfl⟩ := List.exists_cons_of_ne_nil last
          exact pair d more rfl rfl
        rw [List.cons_append, quoted.eq_4 _ _ _ notQuote fun _ _ same => absurd same backslash,
          startsWith_newline_of_not_mem last own, if_neg Bool.false_ne_true,
          ih last (fun member => own (List.mem_of_mem_tail member)), List.length_cons]
        · ring_nf
        · rintro ⟨body, after, inside, rfl⟩
          exact opened ⟨_, after, inside.plain notQuote backslash, rfl⟩

theorem exists_line (some : rest ≠ []) :
    ∃ line after, rest = line ++ after ∧ line ≠ [] ∧ '\n' ∉ line.tail ∧ LineEnd after := by
  obtain ⟨c, more, rfl⟩ := List.exists_cons_of_ne_nil some
  refine ⟨c :: more.takeWhile (· != '\n'), more.dropWhile (· != '\n'), ?_, by simp, ?_, ?_⟩
  · rw [List.cons_append, List.takeWhile_append_dropWhile]
  · intro member
    simpa using List.mem_takeWhile_imp member
  · intro d first
    have stop := List.head?_dropWhile_not (· != '\n') more
    rw [Option.mem_def.mp first] at stop
    simpa using stop

theorem Quoted.quoted_eq {result : Bool × Nat} (h : Quoted rest result) : quoted 0 rest = result := by
  cases h with
  | closed inside inner => rw [quoted_of_body inside inner, Nat.zero_add]
  | opened some inner ends opened => rw [quoted_of_open some inner ends opened, Nat.zero_add]

theorem quoted_spec (some : rest ≠ []) : Quoted rest (quoted 0 rest) := by
  suffices exact : ∃ result, Quoted rest result by
    obtain ⟨result, exact⟩ := exact
    rwa [exact.quoted_eq]
  obtain ⟨line, after, rfl, nonempty, inner, ends⟩ := exists_line some
  by_cases closes : Literal.Closes line
  · obtain ⟨body, more, inside, rfl⟩ := closes
    have own : '\n' ∉ (body ++ ['"']).tail := by
      rw [← List.singleton_append, ← List.append_assoc,
        List.tail_append_of_ne_nil (by simp)] at inner
      exact fun member => inner (List.mem_append_left _ member)
    rw [List.append_assoc, List.cons_append]
    exact ⟨_, .closed inside own⟩
  · exact ⟨_, .opened nonempty inner ends closes⟩

end Lexeme
end LC3
