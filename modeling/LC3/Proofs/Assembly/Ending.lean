import LC3.Proofs.Assembly.Extension

/-!
The end of a program. A reading does not get past an END, nor past a string literal that has no end,
so what stands below a last line with one of them is not looked at. A source that can be assembled
is the same program with an END below it. Main statement: `assemble_end`.
-/

namespace LC3
namespace Line

/-- A reading that takes the line has ended. -/
def Stops (line : Line) : Prop :=
  ∀ p p' : Progress, p.readLine line = .ok p' → ∃ d, p' = .ended d

theorem stops_of_unterminated {line : Line} {t : Token} (member : t ∈ line.tokens)
    (opened : t.kind = .stringLiteral false) : line.Stops := by
  intro p p' h
  obtain ⟨d, rfl⟩ := Progress.exists_ended_of_readLine member opened h
  cases h
  exact ⟨d, rfl⟩

/-- A line with END alone, behind which there is nothing more. -/
def ofEnd (number start : Nat) : Line := ⟨number, [⟨.directive, start, ".END".toList⟩]⟩

theorem stops_ofEnd (number start : Nat) : (ofEnd number start).Stops := by
  intro p p' h
  cases p with
  | beforeOrigin => cases h
  | within d | ended d =>
      cases h
      exact ⟨d, rfl⟩

theorem ofText_append_end {p : List Char} (closed : ¬ OpensAtEnd p) :
    ofText (p ++ "\n.END".toList) =
      ofText p ++ [ofEnd ((ofText p).length + 1) (byteLength p + 1)] :=
  ofText_append_newline closed ".END".toList

/-- Whatever a text is, it stops with an END on a line behind it. -/
theorem exists_stops (p : List Char) :
    ∃ before line, ofText (p ++ "\n.END".toList) = before ++ [line] ∧ line.Stops := by
  by_cases opened : OpensAtEnd p
  · obtain ⟨before, -, alone⟩ := exists_ofText_append_of_opensAtEnd opened
    obtain ⟨line, last, t, member, kind⟩ := alone "\n.END".toList ("\"\n.END".toList) rfl
    exact ⟨before, line, last, stops_of_unterminated member kind⟩
  · exact ⟨_, _, ofText_append_end opened, stops_ofEnd _ _⟩

end Line

namespace Listing

variable {p : List Char} {l : Listing} {before : List Line} {line : Line}

theorem exists_ended_of_foldlM {start progress : Progress} (stops : line.Stops)
    (read : (before ++ [line]).foldlM Progress.readLine start = .ok progress) :
    ∃ d, progress = .ended d := by
  rw [List.foldlM_append] at read
  obtain ⟨mid, -, last⟩ := Stage.bind_eq_ok.mp read
  obtain ⟨_, own, same⟩ := Stage.bind_eq_ok.mp ((List.foldlM_cons ..).symm.trans last)
  cases same
  exact stops _ _ own

/-- What stands below a line that no reading gets past makes no difference. -/
theorem ofText_append_of_stops (closed : ¬ OpensAtEnd p)
    (last : Line.ofText p = before ++ [line]) (stops : line.Stops) (q : List Char) :
    ofText (p ++ '\n' :: q) = ofText p := by
  simp only [ofText, ofLines, Line.ofText_append_newline closed, List.foldlM_append]
  cases read : (Line.ofText p).foldlM Progress.readLine .beforeOrigin with
  | error e => rfl
  | ok progress =>
      obtain ⟨d, rfl⟩ := exists_ended_of_foldlM stops (last ▸ read)
      have rest := Progress.foldlM_readLine_ended d
        ((Line.ofText q).map (Line.shift (byteLength p + 1) (Line.ofText p).length))
      simp only [bind, Except.bind, rest]

/-- A source that is listed has the same listing with an END below it. -/
theorem ofText_append_end (listed : ofText p = .ok l) :
    ofText (p ++ "\n.END".toList) = .ok l := by
  by_cases opened : OpensAtEnd p
  · exact ofText_append_of_opensAtEnd opened listed _
  · obtain ⟨progress, read, own⟩ := ofText_eq_ok_iff.mp listed
    obtain ⟨d, rfl | rfl, rfl⟩ : ∃ d, (progress = .within d ∨ progress = .ended d) ∧
        d.listing = l := by
      cases progress with
      | beforeOrigin => cases own
      | within d => exact ⟨d, .inl rfl, Option.some.inj own⟩
      | ended d => exact ⟨d, .inr rfl, Option.some.inj own⟩
    all_goals
      refine ofText_eq_ok_iff.mpr ⟨.ended d, ?_, rfl⟩
      rw [Line.ofText_append_end opened, List.foldlM_append, read]
      rfl

end Listing

/-- Nothing below an END is looked at, and an END says no more than the end of the source. -/
theorem assemble_end (p q : List Char) :
    assemble (p ++ "\n.END\n".toList ++ q) = assemble (p ++ "\n.END".toList) ∧
      ∀ program, assemble p = .ok program →
        assemble (p ++ "\n.END".toList) = .ok program := by
  constructor
  · obtain ⟨before, line, last, stops⟩ := Line.exists_stops p
    have closed : ¬ OpensAtEnd (p ++ "\n.END".toList) := by
      intro opened
      simpa using opened.getLast?
    have whole : p ++ "\n.END\n".toList ++ q = p ++ "\n.END".toList ++ '\n' :: q := by simp
    rw [whole, assemble, assemble, Listing.ofText_append_of_stops closed last stops]
  · intro program assembled
    obtain ⟨l, listed, programmed⟩ := assemble_eq_ok_iff.mp assembled
    exact assemble_eq_ok_iff.mpr ⟨l, Listing.ofText_append_end listed, programmed⟩

/-- The last label has no statement and the text below the END is no program. -/
theorem assemble_end_danglingSource :
    assemble (danglingSource ++ "\n.END\n".toList ++ "\" BAD .ORIG".toList) = .ok danglingProgram := by
  obtain ⟨below, same⟩ := assemble_end danglingSource "\" BAD .ORIG".toList
  exact below.trans (same danglingProgram rfl)

end LC3
