import LC3.Assembly.Listing
import LC3.Proofs.Stage

/-!
What the first pass can do with a clause. A clause defines its label, puts its statement in place,
opens the program or ends it, and does nothing else. Main statements: `reads_of_readClause`,
`readClause_of_reads`.
-/

namespace LC3
namespace Clause

/-- The label that a clause defines. -/
def label? : Clause → Option Token
  | .blank => none
  | .label t => some t
  | .instruction t? _ _ _ => t?
  | .directive t? _ _ _ => t?

def isStatement : Clause → Bool
  | .instruction _ _ _ _ => true
  | .directive _ _ d _ => d = .fill ∨ d = .block ∨ d = .string
  | _ => false

def isEnd : Clause → Bool
  | .directive _ _ d _ => d = .stop
  | _ => false

/-- The mnemonic or directive and the content of the statement that comes of a clause. -/
inductive Makes : Clause → Token → Content → Prop
  | instruction {label head m tokens operands} (read : tokens.mapM Operand.ofToken = .ok operands) :
      Makes (.instruction label head m tokens) head (.instruction m operands)
  | fill {label head tokens t datum} (only : single head tokens = .ok t)
      (read : fillDatum t = .ok datum) :
      Makes (.directive label head .fill tokens) head (.fill datum t.span)
  | block {label head tokens t count} (only : single head tokens = .ok t)
      (read : blockCount t = .ok count) :
      Makes (.directive label head .block tokens) head (.block count)
  | string {label head tokens t characters} (only : single head tokens = .ok t)
      (read : t.characters = .ok characters) :
      Makes (.directive label head .string tokens) head (.string characters)

/-- The clause that comes of the tokens behind a label. -/
inductive OfRest : Option Token → List Token → Clause → Prop
  | blank : OfRest none [] .blank
  | label {t} : OfRest (some t) [] (.label t)
  | instruction {name head m operands} (role : head.role = .identifier)
      (named : Mnemonic.ofName? head.text = some m) :
      OfRest name (head :: operands) (.instruction name head m operands)
  | directive {name head d operands} (role : head.role = .directive)
      (named : Directive.ofName? head.text = some d) :
      OfRest name (head :: operands) (.directive name head d operands)

theorem single_eq_ok_iff {head t : Token} {tokens : List Token} :
    single head tokens = .ok t ↔ tokens = [t] := by
  match tokens with
  | [] => simp [single]
  | [u] => simp [single]
  | _ :: _ :: _ => simp [single]

theorem ofRest_eq_ok_iff {name : Option Token} {rest : List Token} {clause : Clause} :
    ofRest name rest = .ok clause ↔ OfRest name rest clause := by
  constructor
  · intro h
    cases rest with
    | nil =>
        cases h
        cases name with
        | none => exact .blank
        | some t => exact .label
    | cons head operands =>
        rw [ofRest] at h
        split at h
        · next role =>
          split at h
          · next named => cases h; exact .instruction role named
          · cases h
        · next role =>
          split at h
          · next named => cases h; exact .directive role named
          · cases h
        · cases h
  · intro h
    cases h with
    | blank | label => rfl
    | instruction role named | directive role named => simp only [ofRest, role, named]

theorem Makes.isStatement {clause : Clause} {head : Token} {content : Content}
    (h : clause.Makes head content) : clause.isStatement = true := by
  cases h <;> rfl

theorem Makes.isEnd {clause : Clause} {head : Token} {content : Content}
    (h : clause.Makes head content) : clause.isEnd = false := by
  cases h <;> rfl

end Clause

namespace Progress

/-- How a clause in the line of that number takes a reading further that has not ended. -/
inductive Reads (number : Nat) : Progress → Clause → Progress → Prop
  | blank {p} : Reads number p .blank p
  | label {d d' label} (defined : d.defineSome (some label) = .ok d') :
      Reads number (.within d) (.label label) (.within d')
  | origin {label head tokens t origin d} (only : Clause.single head tokens = .ok t)
      (read : t.unsignedWord .origin = .ok origin)
      (defined : (Draft.start origin).defineSome label = .ok d) :
      Reads number .beforeOrigin (.directive label head .origin tokens) (.within d)
  | stop {d d' label head} (defined : d.defineSome label = .ok d') :
      Reads number (.within d) (.directive label head .stop []) (.ended d')
  | statement {d d' clause head content} (makes : clause.Makes head content)
      (placed : d.place number clause.label? head content = .ok d') :
      Reads number (.within d) clause (.within d')

variable {p p' : Progress} {number : Nat} {clause : Clause}

theorem draft_eq_ok {t : Token} {d : Draft} (live : ∀ d, p ≠ .ended d) (h : p.draft t = .ok d) :
    p = .within d := by
  cases p with
  | beforeOrigin => cases h
  | within d => cases h; rfl
  | ended d => exact absurd rfl (live d)

theorem reads_of_place {t head : Token} {content : Content} {d : Draft}
    (live : ∀ d, p ≠ .ended d) (draft : p.draft t = .ok d) (makes : clause.Makes head content)
    (h : (do return within (← d.place number clause.label? head content)) = Except.ok p') :
    Reads number p clause p' := by
  obtain ⟨d', placed, h⟩ := Stage.bind_eq_ok.mp h
  cases h
  obtain rfl := draft_eq_ok live draft
  exact .statement makes placed

/-- A reading that goes on has done one of these. -/
theorem reads_of_readClause (live : ∀ d, p ≠ .ended d)
    (h : p.readClause number clause = .ok p') : Reads number p clause p' := by
  cases clause with
  | blank =>
      cases h
      exact .blank
  | label label =>
      obtain ⟨d, draft, h⟩ := Stage.bind_eq_ok.mp h
      obtain ⟨d', defined, h⟩ := Stage.bind_eq_ok.mp h
      cases h
      obtain rfl := draft_eq_ok live draft
      exact .label defined
  | instruction label head m tokens =>
      obtain ⟨d, draft, h⟩ := Stage.bind_eq_ok.mp h
      obtain ⟨operands, read, h⟩ := Stage.bind_eq_ok.mp h
      exact reads_of_place live draft (.instruction read) h
  | directive label head directive tokens =>
      cases directive with
      | origin =>
          cases p with
          | beforeOrigin =>
              obtain ⟨t, only, h⟩ := Stage.bind_eq_ok.mp h
              obtain ⟨origin, read, h⟩ := Stage.bind_eq_ok.mp h
              obtain ⟨d, defined, h⟩ := Stage.bind_eq_ok.mp h
              cases h
              exact .origin only read defined
          | within d => cases h
          | ended d => cases h
      | stop =>
          obtain ⟨d, draft, h⟩ := Stage.bind_eq_ok.mp h
          cases tokens with
          | nil =>
              obtain ⟨d', defined, h⟩ := Stage.bind_eq_ok.mp h
              cases h
              obtain rfl := draft_eq_ok live draft
              exact .stop defined
          | cons extra rest => cases h
      | fill =>
          obtain ⟨d, draft, h⟩ := Stage.bind_eq_ok.mp h
          obtain ⟨t, only, h⟩ := Stage.bind_eq_ok.mp h
          obtain ⟨datum, read, h⟩ := Stage.bind_eq_ok.mp h
          exact reads_of_place live draft (.fill only read) h
      | block =>
          obtain ⟨d, draft, h⟩ := Stage.bind_eq_ok.mp h
          obtain ⟨t, only, h⟩ := Stage.bind_eq_ok.mp h
          obtain ⟨count, read, h⟩ := Stage.bind_eq_ok.mp h
          exact reads_of_place live draft (.block only read) h
      | string =>
          obtain ⟨d, draft, h⟩ := Stage.bind_eq_ok.mp h
          obtain ⟨t, only, h⟩ := Stage.bind_eq_ok.mp h
          obtain ⟨characters, read, h⟩ := Stage.bind_eq_ok.mp h
          exact reads_of_place live draft (.string only read) h

/-- What a clause can do, it does. -/
theorem readClause_of_reads (h : Reads number p clause p') :
    p.readClause number clause = .ok p' := by
  cases h with
  | blank => rfl
  | label defined =>
      simp only [Draft.defineSome] at defined
      simp only [readClause, draft, bind, Except.bind, defined, pure, Except.pure]
  | origin only read defined =>
      simp only [readClause, readDirective, only, bind, Except.bind, read, defined, pure,
        Except.pure]
  | stop defined =>
      simp only [readClause, readDirective, draft, bind, Except.bind, defined, pure, Except.pure]
  | statement makes placed =>
      cases makes with
      | instruction read =>
          simp only [Clause.label?] at placed
          simp only [readClause, draft, bind, Except.bind, read, placed, pure, Except.pure]
      | fill only read | block only read | string only read =>
          simp only [Clause.label?] at placed
          simp only [readClause, readDirective, draft, bind, Except.bind, only, read, placed, pure,
            Except.pure]

theorem readLine_within (d : Draft) (line : Line) : (within d).readLine line =
    ((Clause.ofTokens line.tokens).bind ((within d).readClause line.number)).mapError
      (·.onLine line.number) := rfl

theorem readLine_of_reads {line : Line} (live : ∀ d, p ≠ .ended d)
    (parsed : Clause.ofTokens line.tokens = .ok clause) (h : Reads line.number p clause p') :
    p.readLine line = .ok p' := by
  have read := readClause_of_reads h
  cases p with
  | beforeOrigin => simp only [readLine, parsed, Except.bind, read, Except.mapError]
  | within d => simp only [readLine, parsed, Except.bind, read, Except.mapError]
  | ended d => exact absurd rfl (live d)

end Progress

namespace Draft

variable {d d' : Draft}

theorem define_eq_ok_iff {label : Token} :
    d.define label = .ok d' ↔ d.counter ≤ 0xFFFF ∧
      ∃ symbols, d.symbols.insert label.text (BitVec.ofNat 16 d.counter) = .ok symbols ∧
        d' = { d with symbols } := by
  unfold define
  by_cases inside : d.counter ≤ 0xFFFF
  · rw [if_pos inside]
    cases d.symbols.insert label.text (BitVec.ofNat 16 d.counter) with
    | ok symbols => simp [inside, eq_comm]
    | error first => simp
  · rw [if_neg inside]
    simp [inside]

theorem push_eq_ok_iff {line : Nat} {head : Token} {content : Content} :
    d.push line head content = .ok d' ↔
      d.counter ≤ 0xFFFF ∧ d.counter + content.size ≤ 0x10000 ∧
        d' = { d with
          counter := d.counter + content.size
          statements :=
            d.statements.push ⟨line, BitVec.ofNat 16 d.counter, head.span, content⟩ } := by
  unfold push
  simp only
  split
  · next outside => simp [Nat.not_le.mpr outside]
  · next inside =>
    split
    · next long => simp [Nat.not_le.mpr long]
    · next short => simp [Nat.le_of_not_lt inside, Nat.le_of_not_lt short, eq_comm]

end Draft
end LC3
