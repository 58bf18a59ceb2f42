import LC3.Proofs.Source.LineFeeds
import LC3.Proofs.Source.Lines

/-!
Line numbers and line feeds. A line is numbered by the newline tokens before its tokens, which are
the line feeds of the text there but for those that a string literal takes along. Main statements:
`Line.exists_of_mem_ofText`, `count_join`.
-/

namespace LC3

def Piece.isNewline (p : Piece) : Bool := p.kind == .newline

/-- There is a line feed in the piece that does not end its line. -/
def Piece.takesFeed (p : Piece) : Bool := p.kind != .newline && p.text.contains '\n'

def Token.isNewline (t : Token) : Bool := t.piece.isNewline

def Token.takesFeed (t : Token) : Bool := t.piece.takesFeed

namespace Line

variable {tokens : List Token} {l : List Token} {t : Token} {n start : Nat}

/-- A token is in the line whose number counts the newline tokens before it. -/
theorem exists_of_mem_split
    (line : (l, n) ∈ ((split tokens).1 :: (split tokens).2).zipIdx start) (member : t ∈ l) :
    ∃ before after, tokens = before ++ t :: after ∧ n = start + before.countP Token.isNewline := by
  induction tokens generalizing l start with
  | nil =>
      obtain ⟨rfl, -⟩ := Prod.mk.inj (List.mem_singleton.mp line)
      cases member
  | cons u rest ih =>
      by_cases newline : u.kind = .newline
      · rw [split_cons_of_newline newline, List.zipIdx_cons] at line
        rcases List.mem_cons.mp line with first | later
        · obtain ⟨rfl, -⟩ := Prod.mk.inj first
          cases member
        · obtain ⟨before, after, rfl, rfl⟩ := ih later member
          have feed : u.isNewline = true := beq_iff_eq.mpr newline
          exact ⟨u :: before, after, rfl, by rw [List.countP_cons_of_pos feed]; omega⟩
      · have inner : ∀ t ∈ [u], t.kind ≠ .newline := List.forall_mem_singleton.mpr newline
        have other : ¬ u.isNewline = true := fun own => newline (beq_iff_eq.mp own)
        have cons : split (u :: rest) = (u :: (split rest).1, (split rest).2) := split_append inner
        rw [cons, List.zipIdx_cons] at line
        have later {l : List Token}
            (line : (l, n) ∈ ((split rest).1 :: (split rest).2).zipIdx start) (member : t ∈ l) :
            ∃ before after, u :: rest = before ++ t :: after ∧
              n = start + before.countP Token.isNewline := by
          obtain ⟨before, after, rfl, rfl⟩ := ih line member
          exact ⟨u :: before, after, rfl, by rw [List.countP_cons_of_neg other]⟩
        rcases List.mem_cons.mp line with first | others
        · obtain ⟨rfl, rfl⟩ := Prod.mk.inj first
          rcases List.mem_cons.mp member with rfl | inside
          · exact ⟨[], rest, rfl, rfl⟩
          · exact later List.mem_cons_self inside
        · exact later (List.mem_cons_of_mem _ others) member

theorem length_split (tokens : List Token) :
    (split tokens).2.length = tokens.countP Token.isNewline := by
  induction tokens with
  | nil => rfl
  | cons t rest ih =>
      by_cases newline : t.kind = .newline
      · have feed : t.isNewline = true := beq_iff_eq.mpr newline
        rw [split_cons_of_newline newline, List.countP_cons_of_pos feed, List.length_cons, ih]
      · have inner : ∀ u ∈ [t], u.kind ≠ .newline := List.forall_mem_singleton.mpr newline
        have cons : split (t :: rest) = (t :: (split rest).1, (split rest).2) := split_append inner
        have other : ¬ t.isNewline = true := fun own => newline (beq_iff_eq.mp own)
        rw [cons, List.countP_cons_of_neg other, ih]

theorem countP_isNewline_filter (tokens : List Token) :
    (tokens.filter Token.isSignificant).countP Token.isNewline =
      tokens.countP Token.isNewline := by
  rw [List.countP_filter]
  refine List.countP_congr fun t _ => ?_
  rw [Bool.and_eq_true, and_iff_left_iff_imp]
  intro feed
  have newline : t.kind = .newline := beq_iff_eq.mp feed
  rw [Token.isSignificant, newline]
  rfl

/-- A line of a source has its tokens, and its number is one more than the newline tokens before
any of them. -/
theorem exists_of_mem_ofText {source : List Char} {line : Line} (h : line ∈ ofText source)
    (member : t ∈ line.tokens) :
    ∃ before after, tokenize source = before ++ t :: after ∧
      line.number = 1 + before.countP Token.isNewline := by
  obtain ⟨⟨l, n⟩, place, rfl⟩ := List.mem_map.mp h
  obtain ⟨before, after, split, rfl⟩ := exists_of_mem_split place member
  obtain ⟨before', rest, whole, rfl, kept⟩ := List.filter_eq_append_iff.mp split
  obtain ⟨blanks, after', rfl, insignificant, -⟩ := List.filter_eq_cons_iff.mp kept
  refine ⟨before' ++ blanks, after', by rw [whole, List.append_assoc], ?_⟩
  rw [← countP_isNewline_filter (before' ++ blanks), List.filter_append,
    List.filter_eq_nil_iff.mpr insignificant, List.append_nil]

theorem length_ofText (source : List Char) :
    (ofText source).length = 1 + (tokenize source).countP Token.isNewline := by
  have same := congrArg List.length (map_tokens_ofTokens (tokenize source))
  rwa [List.length_map, List.length_cons, length_split, countP_isNewline_filter,
    Nat.add_comm] at same

end Line

theorem Lexeme.eq_newline_of_kind {c : Char} {rest : List Char}
    (h : (of c rest).kind = .newline) : c = '\n' := by
  by_contra other
  simp only [of, other, if_false, apply_ite Lexeme.kind, ite_eq_iff, reduceCtorEq, and_false,
    or_false] at h

namespace Piece

variable {p : Piece} {pieces : List Piece} {rest : List Char}

theorem Before.eq_newline_of_kind (h : p.Before rest) (kind : p.kind = .newline) : p = newline := by
  obtain ⟨c, more, text, lexeme⟩ := h
  obtain rfl := Lexeme.eq_newline_of_kind (congrArg Lexeme.kind lexeme |>.trans kind)
  exact newline_of_before text ⟨_, more, text, lexeme⟩

/-- No piece has more than one line feed. -/
theorem Before.count (h : p.Before rest) :
    p.text.count '\n' = (if p.isNewline then 1 else 0) + (if p.takesFeed then 1 else 0) := by
  by_cases kind : p.kind = .newline
  · rw [h.eq_newline_of_kind kind]
    rfl
  · by_cases member : '\n' ∈ p.text
    · obtain ⟨more, text, none⟩ := (h.newline_of_mem member).resolve_left
        fun same => kind (congrArg Piece.kind same)
      simp [isNewline, takesFeed, kind, text, List.count_eq_zero_of_not_mem none]
    · simp [isNewline, takesFeed, kind, member, List.count_eq_zero_of_not_mem member]

theorem count_join (cut : Cut rest pieces) : (join pieces).count '\n' =
    pieces.countP isNewline + pieces.countP takesFeed := by
  induction pieces with
  | nil => rfl
  | cons p pieces ih =>
      rw [join_cons, List.count_append, cut.1.count, ih cut.2, List.countP_cons, List.countP_cons]
      omega

theorem le_start_of_mem_place {t : Token} {start : Nat} (h : t ∈ place start pieces) :
    start ≤ t.start := by
  obtain ⟨before, after, -, place⟩ := exists_of_mem_place h
  omega

theorem start_lt_of_mem_place {t : Token} {start : Nat} (cut : Cut rest pieces)
    (h : t ∈ place start pieces) : t.start < start + byteLength (join pieces) := by
  obtain ⟨before, after, rfl, place⟩ := exists_of_mem_place h
  obtain ⟨c, more, text, -⟩ := (cut_append.mp cut).2.1
  have := c.utf8Size_pos
  simp only [join_append, join_cons, text, byteLength_append, byteLength_cons]
  omega

end Piece

/-- The bytes of a text are some, and without its first character those of the rest. -/
theorem exists_byteLength_cons (c : Char) (s : List Char) :
    ∃ n, byteLength (c :: s) = n + 1 ∧ n + 1 - c.utf8Size = byteLength s := by
  have pos := c.utf8Size_pos
  refine ⟨byteLength (c :: s) - 1, ?_, ?_⟩
  · rw [byteLength_cons]
    omega
  · rw [byteLength_cons]
    omega

theorem takeBytesInto_byteLength (taken s t : List Char) :
    takeBytesInto taken (byteLength s) (s ++ t) = taken.reverse ++ s := by
  induction s generalizing taken with
  | nil => simp [takeBytesInto]
  | cons c s ih =>
      obtain ⟨n, size, rest⟩ := exists_byteLength_cons c s
      rw [size, List.cons_append, takeBytesInto, rest, ih, List.reverse_cons, List.append_assoc]
      rfl

/-- The text up to a place in it. -/
theorem takeBytes_append (s t : List Char) : takeBytes (byteLength s) (s ++ t) = s :=
  takeBytesInto_byteLength [] s t

/-- The line feeds in the first bytes of a source. -/
def feedsBefore (n : Nat) (source : List Char) : Nat := (takeBytes n source).count '\n'

/-- Those line feeds among them that string literals take along. -/
def takenBefore (n : Nat) (source : List Char) : Nat :=
  (tokenize source).countP fun t => t.start < n && t.takesFeed

variable {source : List Char} {before after : List Token}

theorem tokenize_eq_append (split : tokenize source = before ++ after) :
    before = Piece.place 0 (before.map Token.piece) ∧
      after = Piece.place (byteLength (Piece.join (before.map Token.piece)))
        (after.map Token.piece) := by
  have placed := Piece.tokenize_eq_place source
  rw [Piece.ofText, split, List.map_append, Piece.place_append, Nat.zero_add] at placed
  have size (start : Nat) (pieces : List Piece) : (Piece.place start pieces).length =
      pieces.length := by
    rw [← List.length_map (f := Token.piece), Piece.map_piece_place]
  exact List.append_inj placed (by rw [size, List.length_map])

theorem start_of_tokenize {t : Token} (split : tokenize source = before ++ t :: after) :
    t.start = byteLength (Piece.join (before.map Token.piece)) :=
  congrArg Token.start (List.cons.inj (tokenize_eq_append split).2).1

/-- The line feeds before a token, or before the end of the source, are the newline tokens there and
those that are taken along. -/
theorem feedsBefore_eq (split : tokenize source = before ++ after) :
    feedsBefore (byteLength (Piece.join (before.map Token.piece))) source =
      before.countP Token.isNewline +
        takenBefore (byteLength (Piece.join (before.map Token.piece))) source := by
  have cut := Piece.cut_ofText source
  have whole := Piece.join_ofText source
  simp only [Piece.ofText, split, List.map_append, Piece.join_append] at cut whole
  obtain ⟨first, -⟩ := Piece.cut_append.mp cut
  obtain ⟨own, others⟩ := tokenize_eq_append split
  generalize stop : byteLength (Piece.join (before.map Token.piece)) = n at others
  have inside : before.countP (fun t => t.start < n && t.takesFeed) =
      before.countP Token.takesFeed := by
    refine List.countP_congr fun t member => ?_
    have early := Piece.start_lt_of_mem_place first (own ▸ member)
    rw [Nat.zero_add, stop] at early
    simp [early]
  have outside : after.countP (fun t => t.start < n && t.takesFeed) = 0 := by
    refine List.countP_eq_zero.mpr fun t member => ?_
    have late := Piece.le_start_of_mem_place (others ▸ member)
    simp [Nat.not_lt.mpr late]
  rw [takenBefore, split, List.countP_append, inside, outside, feedsBefore, ← whole, ← stop,
    takeBytes_append, Piece.count_join first, List.countP_map, List.countP_map]
  rfl

end LC3
