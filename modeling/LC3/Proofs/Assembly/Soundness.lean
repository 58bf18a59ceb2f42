import LC3.Proofs.Assembly.Blame
import LC3.Proofs.Assembly.Grammar
import LC3.Proofs.Source.Boundaries

/-!
That assembling goes wrong in no way but one, with a diagnostic that points into the source. Every
text that is taken from a source of less than two gibibytes can be cut out, every number is one of
the type that it is computed in, every field that an instruction needs has a value, and every
segment of a layout is a field inside a word. Main statement: `sound_assemble`.
-/

namespace LC3

/-- The numbers with a sign that have 64 bits, in which the digits of a literal are added up. -/
def Interval.magnitudes : Interval := ⟨-0x8000000000000000, 0x7FFFFFFFFFFFFFFF⟩

/-- What a line counts that is read next. -/
structure Progress.Counts (p : Progress) (line : Line) : Prop where
  number : (line.number : Int) ∈ Interval.counts
  /-- The counter goes no further than just past the end of memory. -/
  counter : ∀ d, p = .within d → d.counter ≤ 0x10000
  /-- The words of a statement are added to the counter before the sum is checked. -/
  stop : ∀ d, p = .within d → ∀ clause head content, Clause.ofTokens line.tokens = .ok clause →
    clause.Makes head content → ((d.counter + content.size : Nat) : Int) ∈ Interval.counts

/-- What the word of an instruction is computed from. -/
structure Statement.Computes (s : Statement) (symbols : SymbolTable) (m : Mnemonic)
    (operands : List Operand) : Prop where
  /-- A literal, or the distance of a label, is a number of 32 bits. -/
  value : ∀ o ∈ operands, ∀ datum, o.value = .datum datum →
    ∀ v, datum.relativeTo s.address symbols o.span = .ok v → -0x80000000 ≤ v ∧ v ≤ 0x7FFFFFFF
  /-- What the operands assign can be encoded, or a value is out of range: the opcode has a format,
  the format has the layout, and no field is missing. -/
  encode : ∀ assigned, operands.length = (Signature.of operands m).slots.length →
    (Signature.of operands m).assign s.address symbols operands = .ok assigned →
      ∀ e, ((Signature.of operands m).parts assigned).encode = .error e →
        ∃ f v bounds, e = .overflow f v bounds

/-- What the bits of a layout are counted from. -/
structure Layout.Counts (l : Layout) : Prop where
  width : ∀ p ∈ l.placed, Width.ofNat? p.segment.width.bits = .ok p.segment.width
  range : ∀ p ∈ l.placed, BitRange.ofBits? p.range.high p.range.low = .ok p.range
  /-- The lowest bit is the width below the bit above the highest. -/
  low : ∀ p ∈ l.placed, p.range.low + p.segment.width.bits = p.range.high + 1
  top : ∀ p ∈ l.placed.head?, p.range.high = 11
  /-- The highest bit of the next segment is one below the lowest bit. -/
  next : l.placed.IsChain fun p q => q.range.high + 1 = p.range.low

/-- The diagnostic has a cause that arises, and points at a token or at the end of the source. -/
structure Diagnostic.PointsInto (source : List Char) (d : Diagnostic) : Prop where
  arises : ∀ cause, d.problem ≠ .unencodable cause
  slice : ∃ text, d.span.slice? source = some text
  token : d.problem ≠ .grammar .originMissing → ∃ t ∈ tokenize source, d.span = t.span
  ending : d.problem = .grammar .originMissing → d.span = ⟨byteLength source, 0⟩
  line : (d.line : Int) ∈ Interval.counts

/-- Whatever assembling a source does can be done. -/
structure Sound (source : List Char) : Prop where
  /-- Reading tokens counts bytes. -/
  reading : ∀ c, (Cursor.ofText source).Reaches c → c.Counts source
  /-- The tokens of the source are read so, and the text of each can be cut out. -/
  tokens : ∀ t ∈ tokenize source, t.span.slice? source = some t.text ∧
    ∃ c, (Cursor.ofText source).Reaches c ∧ c.nextToken.1 = t
  /-- A text that starts with an x can be cut behind it. -/
  tail : ∀ t ∈ tokenize source, ∀ c rest, t.text = c :: rest → c = 'x' ∨ c = 'X' →
    (⟨1, byteLength t.text - 1⟩ : Span).slice? t.text = some rest
  /-- The value of some digits can have a sign. -/
  magnitude : ∀ radix digits n, Numeral.value radix digits = .ok n →
    (n : Int) ∈ Interval.magnitudes ∧ -(n : Int) ∈ Interval.magnitudes
  lines : ∀ before line after, Line.ofText source = before ++ line :: after →
    ∀ p, before.foldlM Progress.readLine .beforeOrigin = .ok p → p.Counts line
  instructions : ∀ l, Listing.ofText source = .ok l → ∀ s ∈ l.statements, ∀ m operands,
    s.content = .instruction m operands → s.Computes l.symbols m operands
  layouts : ∀ opcode mode layout, Opcode.layout? opcode mode = some layout → layout.Counts
  result : (∃ program, assemble source = .ok program) ∨
    ∃ d, assemble source = .error d ∧ d.PointsInto source

theorem Interval.mem_counts_of_lt {n : Nat} (h : n < 0x100000000) : (n : Int) ∈ counts :=
  mem_iff.mpr ⟨Int.natCast_nonneg n, by simp only [counts]; omega⟩

namespace Numeral

variable {radix v n : Nat} {digits : List Char}

theorem lt_limit_of_accumulate (small : v < limit) (h : accumulate radix v digits = .ok n) :
    n < limit := by
  fun_induction accumulate radix v digits with
  | case1 =>
      cases h
      exact small
  | case2 => cases h
  | case3 _ _ _ _ _ below ih => exact ih below h
  | case4 => cases h

theorem lt_limit_of_value (h : value radix digits = .ok n) : n < limit := by
  unfold value at h
  split at h
  · cases h
  · exact lt_limit_of_accumulate (by decide) h

theorem mem_magnitudes (h : value radix digits = .ok n) :
    (n : Int) ∈ Interval.magnitudes ∧ -(n : Int) ∈ Interval.magnitudes := by
  have below := lt_limit_of_value h
  simp only [limit] at below
  simp only [Interval.mem_iff, Interval.magnitudes]
  omega

end Numeral

theorem Piece.IsLiteral.mem_literals {p : Piece} {v : Int} (h : p.IsLiteral v) :
    v ∈ Interval.literals := by
  cases h with
  | hexadecimal _ _ within => exact within
  | decimal _ _ within => exact within

namespace Literal

theorem length_unescapeInto_le (done text : List Char) :
    (unescapeInto done text).length ≤ done.length + text.length := by
  fun_induction unescapeInto done text with
  | case1 done c rest d escaped ih =>
      simp only [List.length_cons] at ih ⊢
      omega
  | case2 done c rest plain ih =>
      simp only [List.length_cons] at ih ⊢
      omega
  | case3 done c rest _ ih =>
      simp only [List.length_cons] at ih ⊢
      omega
  | case4 done => simp

/-- No escape stands for more characters than it is written with. -/
theorem length_unescape_le (text : List Char) : (unescape text).length ≤ text.length := by
  simpa [unescape] using length_unescapeInto_le [] text

end Literal

theorem Piece.IsString.length_lt {p : Piece} {characters : List Word}
    (h : p.IsString characters) : characters.length + 1 < p.text.length := by
  obtain ⟨-, body, text, -, rfl⟩ := h
  have := Literal.length_unescape_le body
  simp only [text, List.length_map, List.length_cons, List.length_append, List.length_nil]
  omega

theorem length_le_byteLength (text : List Char) : text.length ≤ byteLength text := by
  induction text with
  | nil => exact Nat.le_refl 0
  | cons c text ih =>
      have := c.utf8Size_pos
      rw [List.length_cons, byteLength_cons]
      omega

/-- A statement takes up no more words than a block can have, or its literal has characters. -/
theorem Clause.Makes.size_le {clause : Clause} {head : Token} {content : Content} {n : Nat}
    (h : clause.Makes head content) (short : ∀ t ∈ clause.tokens, t.text.length ≤ n) :
    content.size ≤ 0xFFFF + n := by
  cases h with
  | instruction => simp only [Content.size]; omega
  | fill => simp only [Content.size]; omega
  | @block _ _ _ _ count =>
      have := count.isLt
      simp only [Content.size]
      omega
  | @string label _ tokens t characters only read =>
      have member : t ∈ (directive label head .string tokens).tokens := by
        obtain rfl := Clause.single_eq_ok_iff.mp only
        simp [Clause.tokens]
      have written : characters.length + 1 < t.text.length :=
        (Token.characters_eq_ok_iff.mp read).length_lt
      have := short t member
      simp only [Content.size]
      omega

namespace Line

variable {source : List Char} {line : Line} {before after : List Line}

theorem length_text_le {t : Token} (inside : line ∈ ofText source) (member : t ∈ line.tokens) :
    t.text.length ≤ byteLength source := by
  obtain ⟨_, _, split, -⟩ := exists_of_mem_ofText inside member
  have own : t ∈ tokenize source := by simp [split]
  obtain ⟨first, last, whole, -⟩ := exists_slice_of_mem_tokenize own
  refine Nat.le_trans (length_le_byteLength t.text) ?_
  rw [whole, byteLength_append, byteLength_append]
  omega

theorem number_le {line : Line} (inside : line ∈ ofText source) :
    line.number ≤ (ofText source).length := by
  obtain ⟨⟨tokens, number⟩, place, rfl⟩ := List.mem_map.mp inside
  rw [ofText, ofTokens, List.length_map, List.length_zipIdx]
  exact Nat.le_of_lt_succ (List.snd_lt_of_mem_zipIdx place)

/-- There is a line more than there are line feeds. -/
theorem length_ofText_le (source : List Char) : (ofText source).length ≤ byteLength source + 1 := by
  have feeds := Piece.count_join (Piece.cut_ofText source)
  rw [Piece.join_ofText, Piece.ofText, List.countP_map] at feeds
  have newlines : (tokenize source).countP Token.isNewline ≤ source.count '\n' := by
    rw [feeds]
    exact Nat.le_add_right ..
  calc (ofText source).length = 1 + (tokenize source).countP Token.isNewline := length_ofText source
    _ ≤ 1 + source.length := Nat.add_le_add_left (Nat.le_trans newlines List.count_le_length) 1
    _ ≤ 1 + byteLength source := Nat.add_le_add_left (length_le_byteLength source) 1
    _ = byteLength source + 1 := Nat.add_comm ..

end Line

/-- A reading that has passed some lines of a source goes on with the next one. -/
theorem Progress.counts_of_foldlM {source : List Char} {before after : List Line} {line : Line}
    {p : Progress} (small : byteLength source < 0x80000000)
    (split : Line.ofText source = before ++ line :: after)
    (read : before.foldlM readLine .beforeOrigin = .ok p) : p.Counts line := by
  have inside : line ∈ Line.ofText source := by simp [split]
  have counter (d : Draft) (within : p = .within d) : d.counter ≤ 0x10000 := by
    have start : Progress.beforeOrigin.Laid [] := ⟨rfl, rfl⟩
    have ordered : Line.Ordered ([] ++ before) :=
      (List.pairwise_append.mp (split ▸ Line.ordered_ofText source)).1
    have laid := start.run (fun d => nofun) ordered read
    subst within
    exact Draft.Laid.fits laid
  refine ⟨Interval.mem_counts_of_lt ?_, counter, ?_⟩
  · have := Line.number_le inside
    have := Line.length_ofText_le source
    omega
  · intro d within clause head content parsed makes
    have := counter d within
    have := makes.size_le fun t member =>
      Line.length_text_le inside (Clause.subset_of_ofTokens parsed member)
    exact Interval.mem_counts_of_lt (by omega)

theorem Datum.relativeTo_mem_literals {here : Word} {symbols : SymbolTable} {span : Span} {d : Datum}
    {v : Int} (given : ∀ n, d = .literal n → n ∈ Interval.literals)
    (h : d.relativeTo here symbols span = .ok v) : v ∈ Interval.literals := by
  cases d with
  | literal n =>
      cases h
      exact given _ rfl
  | label name =>
      obtain ⟨a, -, rfl⟩ := Stage.map_eq_ok.mp h
      have := a.isLt
      have := here.isLt
      exact Interval.mem_iff.mpr (by simp only [Interval.literals]; omega)

/-- What the operands of a statement assign makes a word, or a value is out of range. -/
theorem Signature.eq_overflow_of_encode {here : Word} {symbols : SymbolTable} {m : Mnemonic}
    {operands : List Operand} {assigned : List Assignment} {e : EncodeError}
    (count : operands.length = (of operands m).slots.length)
    (taken : (of operands m).assign here symbols operands = .ok assigned)
    (failed : ((of operands m).parts assigned).encode = .error e) :
    ∃ f v bounds, e = .overflow f v bounds := by
  have matched := matches_of (count.trans (length_slots m operands))
  obtain ⟨l, layout, covers⟩ := matched.covers
  obtain ⟨-, -, f, v, -, -, rfl⟩ :=
    encode_parts_error covers ((assign_eq_ok_iff matched).mp taken) layout failed
  exact ⟨f.name, v, f.bounds, rfl⟩

theorem Listing.computes_of_ofText {source : List Char} {l : Listing} {s : Statement} {m : Mnemonic}
    {operands : List Operand} (listed : ofText source = .ok l) (member : s ∈ l.statements)
    (content : s.content = .instruction m operands) : s.Computes l.symbols m operands where
  value o inside datum own v h := by
    obtain ⟨line, -, clause, head, -, makes, -, -⟩ :=
      Stage.exists_of_forall₂_left (laid_of_ofText listed).made.flip member
    rw [content] at makes
    cases makes with
    | @instruction label _ _ tokens _ read =>
        obtain ⟨t, -, given⟩ :=
          Stage.exists_of_forall₂_left (Stage.mapM_eq_ok_iff.mp read).flip inside
        refine Datum.relativeTo_mem_literals (fun n literal => ?_) h
        subst literal
        have operand := (Token.ofToken_eq_ok_iff.mp given).1
        rw [own] at operand
        cases operand with
        | literal number => exact number.mem_literals
  encode assigned count taken e failed := Signature.eq_overflow_of_encode count taken failed

namespace Segment

variable {segments : List Segment} {h : total segments ≤ 16}

theorem low_add_width_of_mem_place {p : Placement} (member : p ∈ place segments h) :
    p.range.low + p.segment.width.bits = p.range.high + 1 := by
  have same := width_of_mem_place member
  have := p.range.low_le_high
  simp only [BitRange.width] at same
  omega

theorem high_of_mem_head? {p : Placement} (first : p ∈ (place segments h).head?) :
    p.range.high + 1 = total segments := by
  cases segments with
  | nil => cases first
  | cons s rest =>
      cases first
      have := s.width.pos
      simp only [total]
      omega

theorem isChain_place :
    (place segments h).IsChain fun p q => q.range.high + 1 = p.range.low := by
  induction segments with
  | nil => exact .nil
  | cons s rest ih =>
      rw [place, List.isChain_cons]
      exact ⟨fun q first => high_of_mem_head? first, ih⟩

end Segment

theorem Width.ofNat?_bits (w : Width) : ofNat? w.bits = .ok w := ofNat?_eq_ok_iff.mpr rfl

theorem BitRange.ofBits?_bits (r : BitRange) : ofBits? r.high r.low = .ok r :=
  dif_pos ⟨r.low_le_high, r.high_lt⟩

theorem Layout.counts (l : Layout) : l.Counts where
  width p _ := p.segment.width.ofNat?_bits
  range p _ := p.range.ofBits?_bits
  low p member := Segment.low_add_width_of_mem_place member
  top p first := by
    have := Segment.high_of_mem_head? first
    have := l.covers
    omega
  next := Segment.isChain_place

theorem Diagnostic.pointsInto_of_assemble {source : List Char} {d : Diagnostic}
    (small : byteLength source < 0x80000000) (failed : assemble source = .error d) :
    d.PointsInto source := by
  have lines := Line.length_ofText_le source
  rcases isOfLine_of_assemble failed with ⟨line, inside, ⟨number, t, member, span⟩, own⟩ | rfl
  · obtain ⟨before, after, split, -⟩ := Line.exists_of_mem_ofText inside member
    have token : t ∈ tokenize source := by simp [split]
    have below := Line.number_le inside
    refine ⟨?_, ⟨t.text, ?_⟩, fun _ => ⟨t, token, span⟩, ?_, ?_⟩
    · intro cause problem
      rw [problem] at own
      cases own
    · rw [span]
      exact slice?_of_mem_tokenize token
    · intro problem
      rw [problem] at own
      cases own
    · rw [number]
      exact Interval.mem_counts_of_lt (by omega)
  · refine ⟨fun cause => nofun, ⟨[], ?_⟩, fun other => absurd rfl other, fun _ => rfl, ?_⟩
    · exact Span.slice?_eq_some_iff.mpr ⟨source, [], by simp, rfl, rfl⟩
    · have count : (Line.ofText source).length < 0x100000000 := by omega
      exact Interval.mem_counts_of_lt count

/-- A source of less than two gibibytes is assembled, or its diagnostic points into it. -/
theorem sound_assemble {source : List Char} (small : byteLength source < 0x80000000) :
    Sound source where
  reading c := Cursor.counts_of_reaches (Interval.mem_counts_of_lt (by omega))
  tokens t member := ⟨slice?_of_mem_tokenize member, exists_reaches_of_mem_tokenize member⟩
  tail t _ c rest text first := by
    have one : c.utf8Size = 1 := by
      rcases first with rfl | rfl
      · rfl
      · rfl
    rw [text, byteLength_cons, one, Nat.add_sub_cancel_left]
    exact Span.slice?_tail one rest
  magnitude radix digits n := Numeral.mem_magnitudes
  lines before line after split p read := Progress.counts_of_foldlM small split read
  instructions l listed s member m operands := Listing.computes_of_ofText listed member
  layouts opcode mode layout _ := layout.counts
  result := by
    cases assembled : assemble source with
    | ok program => exact .inl ⟨program, rfl⟩
    | error d => exact .inr ⟨d, rfl, Diagnostic.pointsInto_of_assemble small assembled⟩

/-- A string with letters of two bytes, and a jump to a label that is not defined. -/
def accentedSource : List Char :=
  ".ORIG x3000\nMOT .STRINGZ \"été\"\nLD R0, MOT\nBR LOIN".toList

theorem sound_accentedSource :
    byteLength accentedSource < 0x80000000 ∧ Sound accentedSource ∧
      ∃ d, assemble accentedSource = .error d ∧ d.span.slice? accentedSource = some "LOIN".toList :=
  ⟨by decide, sound_assemble (by decide), _, rfl, by decide⟩

end LC3
