import LC3.Proofs.Assembly.Grammar

/-!
The entries of a program: what its lines say. A row has an optional label and then nothing, an
instruction or a directive, and the entry that it gives is the one that the clause of its line gives.
Main statements: `exists_gives_iff`, `Of.writes`, `Of.act_eq_stop_iff`, `Gives.unique`.
-/

namespace LC3

/-- What a statement is made of, without its places in the source. -/
inductive Item where
  | instruction (mnemonic : Mnemonic) (values : List OperandValue)
  | fill (datum : Datum)
  | block (count : Word)
  | string (characters : List Word)
  deriving DecidableEq, Repr

def Item.size : Item → Nat
  | .instruction _ _ => 1
  | .fill _ => 1
  | .block count => count.toNat
  | .string characters => characters.length + 1

def Content.item : Content → Item
  | .instruction m operands => .instruction m (operands.map Operand.value)
  | .fill datum _ => .fill datum
  | .block count => .block count
  | .string characters => .string characters

@[simp] theorem Content.size_item (c : Content) : c.item.size = c.size := by
  cases c <;> rfl

/-- What a line does behind its label. -/
inductive Act where
  | nothing
  | origin (address : Word)
  | stop
  | put (item : Item)
  deriving DecidableEq, Repr

/-- The operands of the statement that an entry puts in place. -/
def Act.values : Act → List OperandValue
  | .put (.instruction _ values) => values
  | .put (.fill datum) => [.datum datum]
  | _ => []

structure Entry where
  label : Option Label
  act : Act
  deriving DecidableEq, Repr

namespace Entry

def blank : Entry := ⟨none, .nothing⟩

/-- The label of a row, with a colon or without, or no label. -/
inductive Labels : List Piece → Option Label → Prop
  | none : Labels [] none
  | bare {p} (name : p.IsLabel) : Labels [p] (some p.text)
  | colon {p q} (name : p.IsLabel) (mark : q.kind = .colon) : Labels [p, q] (some p.text)

/-- The rest of a row, where `fills` says what a FILL takes. -/
inductive Acts (fills : Piece → Datum → Prop) : List Piece → Act → Prop
  | nothing : Acts fills [] .nothing
  | instruction {p m pieces values} (head : p.IsMnemonic m)
      (given : List.Forall₂ Piece.IsOperand pieces values) :
      Acts fills (p :: pieces) (.put (.instruction m values))
  | origin {p q a} (head : p.IsDirective .origin) (given : q.IsWord a) :
      Acts fills [p, q] (.origin a)
  | stop {p} (head : p.IsDirective .stop) : Acts fills [p] .stop
  | fill {p q d} (head : p.IsDirective .fill) (given : fills q d) :
      Acts fills [p, q] (.put (.fill d))
  | block {p q n} (head : p.IsDirective .block) (given : q.IsWord n) :
      Acts fills [p, q] (.put (.block n))
  | string {p q characters} (head : p.IsDirective .string) (given : q.IsString characters) :
      Acts fills [p, q] (.put (.string characters))

theorem Acts.head {fills : Piece → Datum → Prop} {p : Piece} {pieces : List Piece} {act : Act}
    (h : Acts fills (p :: pieces) act) :
    (∃ m, p.IsMnemonic m) ∨ ∃ d, p.IsDirective d := by
  cases h with
  | instruction head => exact .inl ⟨_, head⟩
  | origin head | stop head | fill head | block head | string head => exact .inr ⟨_, head⟩

/-- The row gives the entry. -/
def Of (fills : Piece → Datum → Prop) (row : List Piece) (e : Entry) : Prop :=
  ∃ front back, row = front ++ back ∧ Labels front e.label ∧ Acts fills back e.act

end Entry

/-- A FILL takes a number or any name that is no register. -/
def Piece.IsDatum (p : Piece) (d : Datum) : Prop := p.IsOperand (.datum d)

namespace Clause

/-- The clause gives the entry. -/
inductive Gives : Clause → Entry → Prop
  | blank : Gives .blank .blank
  | label {t} : Gives (.label t) ⟨some t.text, .nothing⟩
  | origin {label head tokens t a} (only : single head tokens = .ok t)
      (read : t.unsignedWord .origin = .ok a) :
      Gives (.directive label head .origin tokens) ⟨label.map Token.text, .origin a⟩
  | stop {label head} : Gives (.directive label head .stop []) ⟨label.map Token.text, .stop⟩
  | statement {clause head content} (makes : clause.Makes head content) :
      Gives clause ⟨clause.label?.map Token.text, .put content.item⟩

variable {tokens rest : List Token} {name : Option Token} {head t : Token} {e : Entry}
  {front back : List Piece} {label : Option Label} {act : Act}

theorem labels_of_splitLabel (h : splitLabel tokens = .ok (name, rest)) :
    ∃ front, tokens = front ++ rest ∧
      Entry.Labels (front.map Token.piece) (name.map Token.text) := by
  cases tokens with
  | nil =>
      cases h
      exact ⟨[], rfl, .none⟩
  | cons t later =>
      rw [splitLabel] at h
      split at h
      · next own =>
        split at h
        · next other =>
          cases h
          have label : t.piece.IsLabel := ⟨Token.role_eq_identifier_iff.mp own.1, own.2, other⟩
          cases later with
          | nil => exact ⟨[t], rfl, .bare label⟩
          | cons u later =>
              rw [dropColon]
              split
              · next colon => exact ⟨[t, u], rfl, .colon label colon⟩
              · exact ⟨[t], rfl, .bare label⟩
        · cases h
      · cases h
        exact ⟨[], rfl, .none⟩

/-- What stands behind a label starts with no label and no colon. -/
theorem splitLabel_of_acts {fills : Piece → Datum → Prop}
    (acts : Entry.Acts fills (rest.map Token.piece) act) :
    splitLabel rest = .ok (none, rest) ∧ dropColon rest = rest := by
  cases rest with
  | nil => exact ⟨rfl, rfl⟩
  | cons t later =>
      have other : ¬ (t.role = .identifier ∧ Mnemonic.ofName? t.text = none) ∧
          t.kind ≠ .colon := by
        rcases acts.head with ⟨m, name, own⟩ | ⟨d, kind, -⟩
        · have own : Mnemonic.ofName? t.text = some m := own
          refine ⟨by simp [own], fun colon => ?_⟩
          rcases name with kind | ⟨kind, -⟩
          · exact absurd (colon.symm.trans kind) (by decide)
          · exact absurd (colon.symm.trans kind) (by decide)
        · have role := Token.role_eq_directive_iff.mpr kind
          have kind : t.kind = .directive := kind
          exact ⟨by simp [role], by simp [kind]⟩
      exact ⟨if_neg other.1, if_neg other.2⟩

theorem splitLabel_of_labels {front : List Token}
    (labels : Entry.Labels (front.map Token.piece) label)
    (acts : splitLabel rest = .ok (none, rest) ∧ dropColon rest = rest) :
    ∃ name, splitLabel (front ++ rest) = .ok (name, rest) ∧ name.map Token.text = label := by
  have own {t : Token} (h : t.piece.IsLabel) (later : List Token) :
      splitLabel (t :: later) = .ok (some t, dropColon later) := by
    have label : t.role = .identifier ∧ Mnemonic.ofName? t.text = .none :=
      ⟨Token.role_eq_identifier_iff.mpr h.1, h.2.1⟩
    have other : Register.ofName? t.text = .none := h.2.2
    rw [splitLabel, if_pos label, if_pos other]
  match front, labels with
  | [], .none => exact ⟨none, acts.1, rfl⟩
  | [t], .bare name =>
      refine ⟨some t, ?_, rfl⟩
      rw [List.singleton_append, own name, acts.2]
  | [t, u], .colon name mark =>
      have mark : u.kind = .colon := mark
      refine ⟨some t, ?_, rfl⟩
      rw [List.cons_append, own name, List.singleton_append, dropColon, if_pos mark]

theorem OfRest.acts {clause : Clause} (h : OfRest name rest clause) (gives : clause.Gives e) :
    e.label = name.map Token.text ∧ Entry.Acts Piece.IsDatum (rest.map Token.piece) e.act := by
  cases h with
  | blank =>
      cases gives with
      | blank => exact ⟨rfl, .nothing⟩
      | statement makes => cases makes
  | label =>
      cases gives with
      | label => exact ⟨rfl, .nothing⟩
      | statement makes => cases makes
  | instruction role named =>
      cases gives with
      | statement makes =>
          cases makes with
          | instruction read =>
              exact ⟨rfl, .instruction ⟨Token.role_eq_identifier_iff.mp role, named⟩
                (Token.mapM_ofToken_eq_ok_iff.mp ⟨_, read, rfl⟩)⟩
  | directive role named =>
      have kind := Token.role_eq_directive_iff.mp role
      cases gives with
      | origin only read =>
          obtain rfl := single_eq_ok_iff.mp only
          exact ⟨rfl, .origin ⟨kind, named⟩ (Token.unsignedWord_eq_ok_iff.mp read)⟩
      | stop => exact ⟨rfl, .stop ⟨kind, named⟩⟩
      | statement makes =>
          cases makes with
          | fill only read =>
              obtain rfl := single_eq_ok_iff.mp only
              exact ⟨rfl, .fill ⟨kind, named⟩ (Token.fillDatum_eq_ok_iff.mp read)⟩
          | block only read =>
              obtain rfl := single_eq_ok_iff.mp only
              exact ⟨rfl, .block ⟨kind, named⟩ (Token.blockCount_eq_ok_iff.mp read)⟩
          | string only read =>
              obtain rfl := single_eq_ok_iff.mp only
              exact ⟨rfl, .string ⟨kind, named⟩ (Token.characters_eq_ok_iff.mp read)⟩

theorem exists_ofRest_of_acts (acts : Entry.Acts Piece.IsDatum (rest.map Token.piece) act) :
    ∃ clause, OfRest name rest clause ∧ clause.Gives ⟨name.map Token.text, act⟩ := by
  have directive {head : Token} {d : Directive} (own : head.piece.IsDirective d)
      (operands : List Token) :
      OfRest name (head :: operands) (.directive name head d operands) :=
    .directive (Token.role_eq_directive_iff.mpr own.1) own.2
  have pair {p q : Piece} (same : rest.map Token.piece = [p, q]) :
      ∃ head t : Token, rest = [head, t] ∧ head.piece = p ∧ t.piece = q := by
    obtain ⟨head, later, rfl, first, same⟩ := List.map_eq_cons_iff.mp same
    obtain ⟨t, none, rfl, second, same⟩ := List.map_eq_cons_iff.mp same
    obtain rfl := List.map_eq_nil_iff.mp same
    exact ⟨head, t, rfl, first, second⟩
  generalize same : rest.map Token.piece = row at acts
  cases acts with
  | nothing =>
      obtain rfl := List.map_eq_nil_iff.mp same
      cases name with
      | none => exact ⟨_, .blank, .blank⟩
      | some t => exact ⟨_, .label, .label⟩
  | @instruction p m pieces values own given =>
      obtain ⟨head, operands, rfl, rfl, rfl⟩ := List.map_eq_cons_iff.mp same
      obtain ⟨operands', read, rfl⟩ := Token.mapM_ofToken_eq_ok_iff.mpr given
      exact ⟨_, .instruction (Token.role_eq_identifier_iff.mpr own.1) own.2,
        .statement (.instruction read)⟩
  | stop own =>
      obtain ⟨head, later, rfl, rfl, none⟩ := List.map_eq_cons_iff.mp same
      obtain rfl := List.map_eq_nil_iff.mp none
      exact ⟨_, directive own [], .stop⟩
  | origin own given =>
      obtain ⟨head, t, rfl, rfl, rfl⟩ := pair same
      exact ⟨_, directive own [t], .origin rfl (Token.unsignedWord_eq_ok_iff.mpr given)⟩
  | fill own given =>
      obtain ⟨head, t, rfl, rfl, rfl⟩ := pair same
      exact ⟨_, directive own [t], .statement (.fill rfl (Token.fillDatum_eq_ok_iff.mpr given))⟩
  | block own given =>
      obtain ⟨head, t, rfl, rfl, rfl⟩ := pair same
      exact ⟨_, directive own [t], .statement (.block rfl (Token.blockCount_eq_ok_iff.mpr given))⟩
  | string own given =>
      obtain ⟨head, t, rfl, rfl, rfl⟩ := pair same
      exact ⟨_, directive own [t], .statement (.string rfl (Token.characters_eq_ok_iff.mpr given))⟩

/-- A line gives the entry that its row gives. -/
theorem exists_gives_iff : (∃ clause, ofTokens tokens = .ok clause ∧ clause.Gives e) ↔
    e.Of Piece.IsDatum (tokens.map Token.piece) := by
  constructor
  · rintro ⟨clause, read, gives⟩
    obtain ⟨⟨name, rest⟩, split, parsed⟩ := Stage.bind_eq_ok.mp read
    obtain ⟨front, rfl, labels⟩ := labels_of_splitLabel split
    obtain ⟨label, acts⟩ := (ofRest_eq_ok_iff.mp parsed).acts gives
    exact ⟨_, _, List.map_append, label ▸ labels, acts⟩
  · obtain ⟨label, act⟩ := e
    rintro ⟨front, back, same, labels, acts⟩
    obtain ⟨front, rest, rfl, rfl, rfl⟩ := List.map_eq_append_iff.mp same
    obtain ⟨name, split, rfl⟩ := splitLabel_of_labels labels (splitLabel_of_acts acts)
    obtain ⟨clause, parsed, gives⟩ := exists_ofRest_of_acts acts
    exact ⟨clause, Stage.bind_eq_ok.mpr ⟨_, split, ofRest_eq_ok_iff.mpr parsed⟩, gives⟩

end Clause

namespace Piece

variable {p : Piece} {d d' : Directive} {v : OperandValue} {w : Word} {n : Int}
  {characters : List Word}

theorem IsDirective.unique (h : p.IsDirective d) (h' : p.IsDirective d') : d = d' :=
  Option.some.inj (h.2.symm.trans h'.2)

theorem IsName.not_isDirective (h : p.IsName) : ¬ p.IsDirective d := by
  rintro ⟨kind, -⟩
  rcases h with other | ⟨other, -⟩ <;> cases kind.symm.trans other

theorem IsLiteral.not_isDirective (h : p.IsLiteral n) : ¬ p.IsDirective d := by
  rintro ⟨kind, -⟩
  cases h <;> cases kind

theorem IsOperand.not_isDirective (h : p.IsOperand v) : ¬ p.IsDirective d := by
  cases h with
  | register name | label name => exact name.not_isDirective
  | literal number => exact number.not_isDirective

theorem IsWord.not_isDirective (h : p.IsWord w) : ¬ p.IsDirective d := by
  obtain ⟨n, number, -⟩ := h
  exact number.not_isDirective

theorem IsString.not_isDirective (h : p.IsString characters) : ¬ p.IsDirective d := by
  rintro ⟨kind, -⟩
  cases kind.symm.trans h.1

theorem IsName.kind (h : p.IsName) : p.kind = .identifier ∨ p.kind = .hexLiteral :=
  h.imp_right And.left

theorem IsLiteral.kind (h : p.IsLiteral n) : p.kind = .hexLiteral ∨ p.kind = .decimalLiteral := by
  cases h with
  | hexadecimal => exact .inl rfl
  | decimal => exact .inr rfl

end Piece

namespace Entry

/-- What a piece can be in a row that gives the entry. -/
inductive Writes (e : Entry) : Piece → Prop
  | label {p} (own : p.IsLabel) (named : e.label = some p.text) : Writes e p
  | colon {p} (mark : p.kind = .colon) : Writes e p
  | mnemonic {p m} (own : p.IsMnemonic m) : Writes e p
  | directive {p d} (own : p.IsDirective d) : Writes e p
  | operand {p v} (own : p.IsOperand v) (used : v ∈ e.act.values) : Writes e p
  | word {p w} (own : p.IsWord w) : Writes e p
  | string {p characters} (own : p.IsString characters) : Writes e p

variable {row front back : List Piece} {p : Piece} {act : Act} {e : Entry} {name : Option Label}

theorem Of.writes (h : e.Of Piece.IsDatum row) (member : p ∈ row) : e.Writes p := by
  obtain ⟨label, act⟩ := e
  obtain ⟨front, back, rfl, labels, acts⟩ := h
  rcases List.mem_append.mp member with inside | inside
  · cases labels with
    | none => cases inside
    | bare own =>
        obtain rfl := List.mem_singleton.mp inside
        exact .label own rfl
    | colon own mark =>
        rcases List.mem_cons.mp inside with rfl | second
        · exact .label own rfl
        · exact .colon (List.mem_singleton.mp second ▸ mark)
  · cases acts with
    | nothing => cases inside
    | instruction head given =>
        rcases List.mem_cons.mp inside with rfl | later
        · exact .mnemonic head
        · obtain ⟨v, used, own⟩ := Stage.exists_of_forall₂_left given later
          exact .operand own used
    | stop head => exact .directive (List.mem_singleton.mp inside ▸ head)
    | origin head given | block head given =>
        rcases List.mem_cons.mp inside with rfl | second
        · exact .directive head
        · exact .word (List.mem_singleton.mp second ▸ given)
    | fill head given =>
        rcases List.mem_cons.mp inside with rfl | second
        · exact .directive head
        · exact .operand (List.mem_singleton.mp second ▸ given) List.mem_cons_self
    | string head given =>
        rcases List.mem_cons.mp inside with rfl | second
        · exact .directive head
        · exact .string (List.mem_singleton.mp second ▸ given)

/-- No unknown token is in a row, nor a string literal without its closing quote. -/
theorem Writes.known (h : e.Writes p) : p.kind ≠ .unknown ∧ p.kind ≠ .stringLiteral false := by
  have ofName {q : Piece} (name : q.IsName) : q.kind ≠ .unknown ∧ q.kind ≠ .stringLiteral false := by
    rcases name.kind with kind | kind <;> simp [kind]
  have ofLiteral {q : Piece} {n : Int} (number : q.IsLiteral n) :
      q.kind ≠ .unknown ∧ q.kind ≠ .stringLiteral false := by
    rcases number.kind with kind | kind <;> simp [kind]
  cases h with
  | label own | mnemonic own => exact ofName own.1
  | colon mark => simp [mark]
  | directive own => simp [own.1]
  | operand own =>
      cases own with
      | register name | label name => exact ofName name
      | literal number => exact ofLiteral number
  | word own =>
      obtain ⟨n, number, -⟩ := own
      exact ofLiteral number
  | string own => simp [own.1]

theorem Labels.not_isDirective (h : Labels front name) :
    ∀ p ∈ front, ∀ d, ¬ p.IsDirective d := by
  cases h with
  | none => nofun
  | bare own => exact List.forall_mem_singleton.mpr fun d => own.1.not_isDirective
  | @colon p q own mark =>
      refine List.forall_mem_cons.mpr ⟨fun d => own.1.not_isDirective, ?_⟩
      rintro q member d ⟨kind, -⟩
      obtain rfl := List.mem_singleton.mp member
      cases kind.symm.trans mark

/-- A row ends the program where it has an END in it. -/
theorem Of.act_eq_stop_iff (h : e.Of Piece.IsDatum row) :
    e.act = .stop ↔ ∃ p ∈ row, p.IsDirective .stop := by
  obtain ⟨label, act⟩ := e
  obtain ⟨front, back, rfl, labels, acts⟩ := h
  have behind : (∃ p ∈ front ++ back, p.IsDirective .stop) ↔ ∃ p ∈ back, p.IsDirective .stop := by
    refine ⟨?_, fun ⟨p, member, own⟩ => ⟨p, List.mem_append_right _ member, own⟩⟩
    rintro ⟨p, member, own⟩
    rcases List.mem_append.mp member with inside | inside
    · exact absurd own (labels.not_isDirective p inside _)
    · exact ⟨p, inside, own⟩
  rw [behind]
  have pair {p q : Piece} {d : Directive} (own : p.IsDirective d) (other : d ≠ .stop)
      (plain : ∀ d, ¬ q.IsDirective d) : ¬ ∃ r ∈ [p, q], r.IsDirective .stop := by
    rintro ⟨r, member, stop⟩
    rcases List.mem_cons.mp member with rfl | second
    · exact other (own.unique stop)
    · exact plain _ (List.mem_singleton.mp second ▸ stop)
  cases acts with
  | nothing => simp
  | @instruction p m pieces values own given =>
      refine iff_of_false nofun ?_
      rintro ⟨q, member, stop⟩
      rcases List.mem_cons.mp member with rfl | later
      · exact own.1.not_isDirective stop
      · obtain ⟨v, -, operand⟩ := Stage.exists_of_forall₂_left given later
        exact operand.not_isDirective stop
  | stop own => exact iff_of_true rfl ⟨_, List.mem_singleton_self _, own⟩
  | origin own given => exact iff_of_false nofun (pair own nofun fun _ => given.not_isDirective)
  | fill own given =>
      exact iff_of_false nofun (pair own nofun fun _ => Piece.IsOperand.not_isDirective given)
  | block own given => exact iff_of_false nofun (pair own nofun fun _ => given.not_isDirective)
  | string own given => exact iff_of_false nofun (pair own nofun fun _ => given.not_isDirective)

end Entry

theorem Clause.Makes.unique {clause : Clause} {head head' : Token} {content content' : Content}
    (h : clause.Makes head content) (h' : clause.Makes head' content') : content = content' := by
  cases h with
  | instruction read =>
      cases h' with
      | instruction read' => rw [Except.ok.inj (read.symm.trans read')]
  | fill only read =>
      cases h' with
      | fill only' read' =>
          obtain rfl := Except.ok.inj (only.symm.trans only')
          rw [Except.ok.inj (read.symm.trans read')]
  | block only read =>
      cases h' with
      | block only' read' =>
          obtain rfl := Except.ok.inj (only.symm.trans only')
          rw [Except.ok.inj (read.symm.trans read')]
  | string only read =>
      cases h' with
      | string only' read' =>
          obtain rfl := Except.ok.inj (only.symm.trans only')
          rw [Except.ok.inj (read.symm.trans read')]

theorem Clause.Gives.unique {clause : Clause} {e e' : Entry} (h : clause.Gives e)
    (h' : clause.Gives e') : e = e' := by
  cases h with
  | blank =>
      cases h' with
      | blank => rfl
      | statement makes => cases makes
  | label =>
      cases h' with
      | label => rfl
      | statement makes => cases makes
  | origin only read =>
      cases h' with
      | origin only' read' =>
          obtain rfl := Except.ok.inj (only.symm.trans only')
          rw [Except.ok.inj (read.symm.trans read')]
      | statement makes => cases makes
  | stop =>
      cases h' with
      | stop => rfl
      | statement makes => cases makes
  | statement makes =>
      cases h' with
      | statement makes' => rw [makes.unique makes']
      | blank | label | origin | stop => cases makes

end LC3
