import Mathlib.Data.List.Basic
import TileSelect.Pattern.Reader
import TileSelect.Proofs.ResultSequences
import TileSelect.Proofs.SExprReading

/-! # Patterns written and read back

A pattern is written as one term.  It is read back as the pattern it was if all its opcodes have names; the
name of a reserved opcode is written with parentheses and read as two terms, and then no list that holds them
is a pattern. -/
namespace TileSelect

def Shape.opcodes : Shape → List Opcode
  | free => []
  | node op left right => op :: (left.opcodes ++ right.opcodes)

/-- The terms that the name of an opcode is read as. -/
def Opcode.terms : Opcode → List (SExpr Unit)
  | reserved extra => [.symbol () "opcode", .list () [.symbol () (toString (extra.val + 5))]]
  | op => [.symbol () op.mnemonic]

def Shape.terms : Shape → List (SExpr Unit)
  | free => [.symbol () Pattern.wildcard]
  | node op left right =>
    if left.isFree && right.isFree then op.terms
    else [.list () (op.terms ++ (left.terms ++ right.terms))]

def Pattern.term (p : Pattern) : SExpr Unit :=
  .list () (if p.isLeaf then p.op.terms else p.op.terms ++ (p.left.terms ++ p.right.terms))

namespace SExpr

theorem endsSymbol_of_isDigit {c : Char} (h : c.isDigit = true) : endsSymbol c = false := by
  have hrange : 48 ≤ c.toNat ∧ c.toNat ≤ 57 := by
    have hdigit : ('0'.toNat ≤ c.toNat && c.toNat ≤ '9'.toNat) = true := h
    simpa using hdigit
  have hne : ∀ d : Char, d.toNat < 48 ∨ 57 < d.toNat → c ≠ d := by
    rintro d hd rfl
    omega
  have hblank : Text.isBlank c = false := by
    simp only [Text.isBlank, Text.blankRanges, List.any_cons, List.any_nil, Bool.or_false,
      Bool.or_eq_false_iff, Bool.and_eq_false_iff, decide_eq_false_iff_not]
    omega
  simp [endsSymbol, hblank, hne '(' (by decide), hne ')' (by decide), hne ';' (by decide)]

theorem toString_plain (n : Nat) :
    (toString n).toList ≠ [] ∧ ∀ c ∈ (toString n).toList, endsSymbol c = false := by
  have hdigits : (toString n).toList = Nat.toDigits 10 n := Nat.toList_repr
  rw [hdigits]
  exact ⟨Nat.toDigits_ne_nil, fun c hc =>
    endsSymbol_of_isDigit (Nat.isDigit_of_mem_toDigits (by decide) (by decide) hc)⟩

theorem writes_toString (n : Nat) : Writes (toString n).toList [.symbol () (toString n)] := by
  obtain ⟨hne, hplain⟩ := toString_plain n
  have hwrites := Writes.symbol hne (by simpa using hplain)
  rwa [String.ofList_toList] at hwrites

theorem writes_mnemonic (op : Opcode) : Writes op.mnemonic.toList op.terms := by
  cases op with
  | ref => exact .symbol (by decide) (by decide)
  | add => exact .symbol (by decide) (by decide)
  | mul => exact .symbol (by decide) (by decide)
  | sub => exact .symbol (by decide) (by decide)
  | any => exact .symbol (by decide) (by decide)
  | reserved extra =>
    -- the parenthesis ends the symbol before it
    have hname : Writes "opcode".toList [.symbol () "opcode"] := .symbol (by decide) (by decide)
    have hwhole := hname.append (writes_toString (extra.val + 5)).list (delimited_cons rfl _)
    simpa [Opcode.mnemonic, Opcode.terms] using hwhole

/-- What stands between the parentheses of a shape. -/
theorem writes_operands (op : Opcode) {left right : Shape} (hleft : Writes left.chars left.terms)
    (hright : Writes right.chars right.terms) :
    Writes (op.mnemonic.toList ++ ' ' :: (left.chars ++ ' ' :: right.chars))
      (op.terms ++ (left.terms ++ right.terms)) := by
  have hspace : endsSymbol ' ' = true := by decide
  have hoperands := hleft.append (hright.blank (c := ' ') (by decide)) (delimited_cons hspace _)
  exact (writes_mnemonic op).append (hoperands.blank (by decide)) (delimited_cons hspace _)

theorem writes_shape (shape : Shape) : Writes shape.chars shape.terms := by
  induction shape with
  | free => exact .symbol (by decide) (by decide)
  | node op left right ihl ihr =>
    rw [Shape.chars, Shape.terms]
    split
    · exact writes_mnemonic op
    · simpa using (writes_operands op ihl ihr).list

theorem writes_pattern (p : Pattern) : Writes p.chars [p.term] := by
  rw [Pattern.chars, Pattern.term]
  by_cases hleaf : p.isLeaf = true
  · rw [if_pos hleaf, if_pos hleaf]
    exact (writes_mnemonic p.op).list
  · have hterms : p.shape.terms = [.list () (p.op.terms ++ (p.left.terms ++ p.right.terms))] :=
      if_neg hleaf
    rw [if_neg hleaf, if_neg hleaf, ← hterms]
    exact writes_shape p.shape

end SExpr

namespace Pattern

variable {μ : Type}

theorem readOpcode_symbol {mark : μ} {text : String} {op : Opcode} :
    readOpcode (SExpr.symbol mark text) = .ok op ↔ Opcode.parse? text = some op := by
  simp only [readOpcode, SExpr.symbol?]
  cases Opcode.parse? text <;> simp

theorem readOpcode_list {mark : μ} {items : List (SExpr μ)} {op : Opcode} :
    readOpcode (SExpr.list mark items) ≠ .ok op := by
  simp [readOpcode, SExpr.symbol?]

theorem readOpcode_unmarked {term : SExpr μ} {op : Opcode} :
    readOpcode term.unmarked = .ok op ↔ readOpcode term = .ok op := by
  cases term with
  | symbol mark text => rw [SExpr.unmarked_symbol, readOpcode_symbol, readOpcode_symbol]
  | list mark items => simp [readOpcode_list]

theorem readShape_of_length {items : List (SExpr μ)} (mark : μ) (h : items.length ≠ 1)
    (h' : items.length ≠ 3) :
    readShape (.list mark items) = .error ⟨.list mark items, .wrongLength⟩ := by
  match items with
  | [] => rw [readShape] <;> simp
  | [_] => exact (h rfl).elim
  | [_, _] => rw [readShape] <;> simp
  | [_, _, _] => exact (h' rfl).elim
  | _ :: _ :: _ :: _ :: _ => rw [readShape] <;> simp

theorem length_ne_of_ne {items : List (SExpr μ)} (hone : ∀ head, items = [head] → False)
    (hthree : ∀ head left right, items = [head, left, right] → False) :
    items.length ≠ 1 ∧ items.length ≠ 3 := by
  constructor
  · intro h
    obtain ⟨head, rfl⟩ := List.length_eq_one_iff.mp h
    exact hone head rfl
  · intro h
    obtain ⟨head, left, right, rfl⟩ := List.length_eq_three.mp h
    exact hthree head left right rfl

/-- A list of three terms is an opcode and two operands. -/
theorem readShape_three (mark : μ) {head left right : SExpr μ} {shape : Shape} :
    readShape (.list mark [head, left, right]) = .ok shape ↔ ∃ op l r, readOpcode head = .ok op ∧
      readShape left = .ok l ∧ readShape right = .ok r ∧ shape = .node op l r := by
  rw [readShape]
  constructor
  · intro h
    obtain ⟨op, hop, h⟩ := Result.bind_eq_ok_iff.mp h
    obtain ⟨l, hl, h⟩ := Result.bind_eq_ok_iff.mp h
    obtain ⟨r, hr, h⟩ := Result.bind_eq_ok_iff.mp h
    exact ⟨op, l, r, hop, hl, hr, (Except.ok.inj h).symm⟩
  · rintro ⟨op, l, r, hop, hl, hr, rfl⟩
    rw [hop, hl, hr]
    rfl

/-- An opcode alone asks nothing of the operands. -/
theorem map_readOpcode {head : SExpr μ} {shape : Shape} :
    ((readOpcode head).map fun op => Shape.node op .free .free) = .ok shape ↔
      ∃ op, readOpcode head = .ok op ∧ shape = .node op .free .free := by
  cases readOpcode head with
  | error blame => simp [Except.map]
  | ok op => simp [Except.map, eq_comm]

theorem readShape_unmarked {term : SExpr μ} {shape : Shape} :
    readShape term.unmarked = .ok shape ↔ readShape term = .ok shape := by
  fun_induction readShape term generalizing shape with
  | case1 mark => simp [readShape]
  | case2 mark text hwild =>
    rw [SExpr.unmarked_symbol, readShape, if_neg hwild, map_readOpcode, map_readOpcode]
    simp only [readOpcode_symbol]
  | case3 mark head =>
    rw [SExpr.unmarked_list, List.map_singleton, readShape, map_readOpcode, map_readOpcode]
    simp only [readOpcode_unmarked]
  | case4 mark head left right ihl ihr =>
    rw [SExpr.unmarked_list, List.map_cons, List.map_cons, List.map_singleton, readShape_three]
    simp only [readOpcode_unmarked, ihl, ihr]
    exact (readShape_three mark).symm
  | case5 mark items hone hthree =>
    have hlength := length_ne_of_ne hone hthree
    rw [SExpr.unmarked_list, readShape_of_length _ (by simpa using hlength.1) (by simpa using hlength.2)]
    simp

theorem read_eq_ok_iff {term : SExpr μ} {p : Pattern} :
    read term = .ok p ↔ readShape term = .ok p.shape := by
  rw [read, Result.bind_eq_ok_iff]
  constructor
  · rintro ⟨shape, hshape, h⟩
    cases shape with
    | free => cases h
    | node op left right =>
      obtain rfl := Except.ok.inj h
      exact hshape
  · intro h
    exact ⟨_, h, rfl⟩

end Pattern

/-- Do all opcodes of the shape have names? -/
def Shape.Named (shape : Shape) : Prop := ∀ op ∈ shape.opcodes, op.isNamed = true

instance : DecidablePred Shape.Named := fun shape =>
  inferInstanceAs (Decidable (∀ op ∈ shape.opcodes, op.isNamed = true))

theorem Shape.named_free : Shape.free.Named := by simp [Shape.Named, Shape.opcodes]

theorem Shape.named_node {op : Opcode} {left right : Shape} :
    (Shape.node op left right).Named ↔ op.isNamed = true ∧ left.Named ∧ right.Named := by
  simp [Shape.Named, Shape.opcodes, or_imp, forall_and]

theorem Opcode.terms_of_isNamed {op : Opcode} (h : op.isNamed = true) :
    op.terms = [.symbol () op.mnemonic] := by
  cases op with
  | reserved extra => cases h
  | _ => rfl

theorem Opcode.isNamed_iff {op : Opcode} : op.isNamed = true ↔ op.terms.length = 1 := by
  cases op <;> simp [Opcode.isNamed, Opcode.terms]

theorem Opcode.length_terms_pos (op : Opcode) : 0 < op.terms.length := by
  cases op <;> simp [Opcode.terms]

theorem Shape.length_terms_pos (shape : Shape) : 0 < shape.terms.length := by
  cases shape with
  | free => exact Nat.one_pos
  | node op left right =>
    rw [Shape.terms]
    split
    · exact op.length_terms_pos
    · exact Nat.one_pos

namespace Pattern

theorem readOpcode_mnemonic {op : Opcode} (h : op.isNamed = true) :
    readOpcode (SExpr.symbol () op.mnemonic) = .ok op :=
  readOpcode_symbol.mpr (Opcode.parse?_mnemonic h)

theorem readShape_mnemonic {op : Opcode} (h : op.isNamed = true) :
    readShape (SExpr.symbol () op.mnemonic) = .ok (.node op .free .free) := by
  have hwild : op.mnemonic ≠ wildcard := by
    cases op with
    | reserved extra => cases h
    | _ => decide
  rw [readShape, if_neg hwild, readOpcode_mnemonic h]
  rfl

theorem eq_free_of_isFree {shape : Shape} (h : shape.isFree = true) : shape = .free := by
  cases shape with
  | free => rfl
  | node => cases h

/-- Three terms in parentheses, where each operand is read as it was. -/
theorem readShape_operands {op : Opcode} {left right : Shape} {l r : SExpr Unit}
    (hop : op.isNamed = true) (hl : left.terms = [l]) (hr : right.terms = [r])
    (hleft : readShape l = .ok left) (hright : readShape r = .ok right) :
    readShape (.list () (op.terms ++ (left.terms ++ right.terms))) = .ok (.node op left right) := by
  rw [Opcode.terms_of_isNamed hop, hl, hr]
  exact (readShape_three ()).mpr ⟨op, left, right, readOpcode_mnemonic hop, hleft, hright, rfl⟩

theorem readShape_terms {shape : Shape} (h : shape.Named) :
    ∃ term, shape.terms = [term] ∧ readShape term = .ok shape := by
  induction shape with
  | free => exact ⟨_, rfl, by rw [readShape, if_pos rfl]⟩
  | node op left right ihl ihr =>
    obtain ⟨hop, hleft, hright⟩ := Shape.named_node.mp h
    rw [Shape.terms]
    split
    · next hfree =>
      obtain ⟨hfl, hfr⟩ := Bool.and_eq_true_iff.mp hfree
      rw [eq_free_of_isFree hfl, eq_free_of_isFree hfr]
      exact ⟨_, Opcode.terms_of_isNamed hop, readShape_mnemonic hop⟩
    · obtain ⟨l, hl, hreadl⟩ := ihl hleft
      obtain ⟨r, hr, hreadr⟩ := ihr hright
      exact ⟨_, rfl, readShape_operands hop hl hr hreadl hreadr⟩

/-- A list of an opcode and two operands is read only if it has three terms: a reserved opcode in one of
these places is a term more, and nothing else in them is less than one. -/
theorem named_of_readShape_operands {op : Opcode} {left right : Shape}
    (hleft : ∀ l s, left.terms = [l] → readShape l = .ok s → left.Named)
    (hright : ∀ r s, right.terms = [r] → readShape r = .ok s → right.Named) {shape : Shape}
    (h : readShape (.list () (op.terms ++ (left.terms ++ right.terms))) = .ok shape) :
    (Shape.node op left right).Named := by
  have hpos := op.length_terms_pos
  have hposl := left.length_terms_pos
  have hposr := right.length_terms_pos
  by_cases hthree : (op.terms ++ (left.terms ++ right.terms)).length = 3
  · simp only [List.length_append] at hthree
    have hop : op.isNamed = true := Opcode.isNamed_iff.mpr (by omega)
    obtain ⟨l, hl⟩ := List.length_eq_one_iff.mp (by omega : left.terms.length = 1)
    obtain ⟨r, hr⟩ := List.length_eq_one_iff.mp (by omega : right.terms.length = 1)
    rw [Opcode.terms_of_isNamed hop, hl, hr] at h
    obtain ⟨_, sl, sr, -, hreadl, hreadr, -⟩ := (readShape_three ()).mp h
    exact Shape.named_node.mpr ⟨hop, hleft l sl hl hreadl, hright r sr hr hreadr⟩
  · rw [readShape_of_length () (by simp only [List.length_append]; omega) hthree] at h
    cases h

theorem named_of_readShape {shape shape' : Shape} {term : SExpr Unit} (hterm : shape.terms = [term])
    (h : readShape term = .ok shape') : shape.Named := by
  induction shape generalizing term shape' with
  | free => exact Shape.named_free
  | node op left right ihl ihr =>
    rw [Shape.terms] at hterm
    split at hterm
    · next hfree =>
      obtain ⟨hfl, hfr⟩ := Bool.and_eq_true_iff.mp hfree
      rw [eq_free_of_isFree hfl, eq_free_of_isFree hfr]
      have hop : op.isNamed = true := Opcode.isNamed_iff.mpr (by rw [hterm]; rfl)
      exact Shape.named_node.mpr ⟨hop, Shape.named_free, Shape.named_free⟩
    · obtain rfl := List.singleton_inj.mp hterm
      exact named_of_readShape_operands (fun l s => ihl) (fun r s => ihr) h

theorem readShape_term {p : Pattern} (h : p.shape.Named) : readShape p.term = .ok p.shape := by
  obtain ⟨op, left, right⟩ := p
  obtain ⟨hop, hleft, hright⟩ := Shape.named_node.mp h
  rw [term]
  split
  · next hfree =>
    obtain ⟨hfl, hfr⟩ := Bool.and_eq_true_iff.mp hfree
    rw [Opcode.terms_of_isNamed hop, readShape, readOpcode_mnemonic hop, shape,
      eq_free_of_isFree hfl, eq_free_of_isFree hfr]
    rfl
  · obtain ⟨l, hl, hreadl⟩ := readShape_terms hleft
    obtain ⟨r, hr, hreadr⟩ := readShape_terms hright
    exact readShape_operands hop hl hr hreadl hreadr

theorem named_of_readShape_term {p : Pattern} {shape : Shape} (h : readShape p.term = .ok shape) :
    p.shape.Named := by
  obtain ⟨op, left, right⟩ := p
  rw [term] at h
  split at h
  · next hfree =>
    obtain ⟨hfl, hfr⟩ := Bool.and_eq_true_iff.mp hfree
    obtain rfl : left = .free := eq_free_of_isFree hfl
    obtain rfl : right = .free := eq_free_of_isFree hfr
    refine Shape.named_node.mpr ⟨?_, Shape.named_free, Shape.named_free⟩
    by_contra hop
    -- the two terms of a reserved opcode
    cases op <;> first | exact hop rfl | cases h
  · exact named_of_readShape_operands (fun l s => named_of_readShape) (fun r s => named_of_readShape) h

/-- The text of a pattern is read as the pattern if its opcodes have names, and as no pattern otherwise. -/
theorem read_term_eq_ok_iff {p q : Pattern} {term : SExpr μ} (hterm : term.unmarked = p.term) :
    read term = .ok q ↔ q = p ∧ p.shape.Named := by
  rw [read_eq_ok_iff, ← readShape_unmarked, hterm]
  constructor
  · intro h
    have hnamed := named_of_readShape_term h
    have hshape := Except.ok.inj (h.symm.trans (readShape_term hnamed))
    refine ⟨?_, hnamed⟩
    cases p
    cases q
    simpa [shape] using hshape
  · rintro ⟨rfl, hnamed⟩
    exact readShape_term hnamed

end Pattern
end TileSelect
