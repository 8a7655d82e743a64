import TileSelect.Proofs.CatalogAgreement
import TileSelect.Proofs.PatternGrammar
import TileSelect.Proofs.SExprSpans

/-! # What a catalog text declares

A catalog text that is read as terms is a catalog exactly if each term is a declaration, and which terms are is said
here without the reader.  Otherwise each term that is none gives one error, on a part of the term.  Looking the parts
up in the spans on record always finds them. -/
namespace TileSelect

namespace Pattern

variable {μ ν : Type}

def Blame.mapMark (f : μ → ν) (b : Blame μ) : Blame ν := ⟨b.term.mapMark f, b.cause⟩

theorem readOpcode_mapMark (f : μ → ν) (term : SExpr μ) :
    readOpcode (term.mapMark f) = (readOpcode term).mapError (Blame.mapMark f) := by
  rw [readOpcode, readOpcode, SExpr.symbol?_mapMark]
  cases term.symbol? with
  | none => rfl
  | some name =>
    dsimp only
    cases Opcode.parse? name <;> rfl

theorem readShape_mapMark (f : μ → ν) (term : SExpr μ) :
    readShape (term.mapMark f) = (readShape term).mapError (Blame.mapMark f) := by
  fun_induction readShape term with
  | case1 mark => simp [readShape, Except.mapError]
  | case2 mark text hwild =>
    rw [SExpr.mapMark_symbol, readShape, if_neg hwild, ← SExpr.mapMark_symbol, readOpcode_mapMark,
      Result.mapError_map]
  | case3 mark head =>
    rw [SExpr.mapMark_list, List.map_singleton, readShape, readOpcode_mapMark, Result.mapError_map]
  | case4 mark head left right ihl ihr =>
    rw [SExpr.mapMark_list, List.map_cons, List.map_cons, List.map_singleton, readShape]
    simp only [readOpcode_mapMark, ihl, ihr, Result.mapError_bind]
    rfl
  | case5 mark items hone hthree =>
    have hlength := length_ne_of_ne hone hthree
    rw [SExpr.mapMark_list, readShape_of_length _ (by simpa using hlength.1) (by simpa using hlength.2),
      ← SExpr.mapMark_list]
    rfl

theorem read_mapMark (f : μ → ν) (term : SExpr μ) :
    read (term.mapMark f) = (read term).mapError (Blame.mapMark f) := by
  rw [read, read, readShape_mapMark, Result.mapError_bind]
  congr 1
  funext shape
  cases shape <;> rfl

end Pattern

namespace Catalog

variable {μ ν : Type}

def Blame.mapMark (f : μ → ν) (b : Blame μ) : Blame ν := ⟨b.term.mapMark f, b.cause⟩

theorem readField_mapMark {α : Type} (meaning : String → Option α) (cause : DeclarationError) (f : μ → ν)
    (term : SExpr μ) :
    readField meaning cause (term.mapMark f) = (readField meaning cause term).mapError (Blame.mapMark f) := by
  rw [readField, readField, SExpr.symbol?_mapMark]
  cases term.symbol?.bind meaning <;> rfl

theorem readPattern_mapMark (f : μ → ν) (term : SExpr μ) :
    readPattern (term.mapMark f) = (readPattern term).mapError (Blame.mapMark f) := by
  rw [readPattern, readPattern, Pattern.read_mapMark]
  cases Pattern.read term <;> rfl

/-- Has the term the form of a declaration, whatever is in its places? -/
def Form (term : SExpr μ) : Prop :=
  ∃ mark head rest, term = .list mark (.symbol head "tile" :: rest) ∧ (rest.length = 3 ∨ rest.length = 4)

theorem Form.cases {term : SExpr μ} (h : Form term) :
    (∃ mark head name loc pattern, term = .list mark [.symbol head "tile", name, loc, pattern]) ∨
    ∃ mark head name loc cost pattern,
      term = .list mark [.symbol head "tile", name, loc, cost, pattern] := by
  obtain ⟨mark, head, rest, rfl, hlength⟩ := h
  match rest with
  | [name, loc, pattern] => exact .inl ⟨mark, head, name, loc, pattern, rfl⟩
  | [name, loc, cost, pattern] => exact .inr ⟨mark, head, name, loc, cost, pattern, rfl⟩
  | [] | [_] | [_, _] | _ :: _ :: _ :: _ :: _ :: _ => simp at hlength

theorem readDeclaration_of_not_form {term : SExpr μ} (h : ¬ Form term) :
    readDeclaration term = blame term .notDeclaration := by
  unfold readDeclaration
  split
  · exact (h ⟨_, _, _, rfl, .inl rfl⟩).elim
  · exact (h ⟨_, _, _, rfl, .inr rfl⟩).elim
  · rfl

theorem Form.of_mapMark {f : μ → ν} {term : SExpr μ} (h : Form (term.mapMark f)) : Form term := by
  obtain ⟨mark, head, rest, hterm, hlength⟩ := h
  obtain ⟨inner, items, rfl, hitems⟩ := SExpr.mapMark_eq_list hterm
  obtain ⟨first, found, rfl, hfirst, rfl⟩ := List.map_eq_cons_iff.mp hitems
  obtain ⟨inner', rfl⟩ := SExpr.mapMark_eq_symbol hfirst
  exact ⟨inner, inner', found, rfl, by simpa using hlength⟩

theorem readDeclaration_mapMark (f : μ → ν) (term : SExpr μ) :
    readDeclaration (term.mapMark f) = (readDeclaration term).mapError (Blame.mapMark f) := by
  by_cases hform : Form term
  · rcases hform.cases with ⟨mark, head, name, loc, pattern, rfl⟩ |
      ⟨mark, head, name, loc, cost, pattern, rfl⟩
    · simp only [SExpr.mapMark_list, List.map_cons, List.map_nil, SExpr.mapMark_symbol, readDeclaration,
        readName, readResource, readField_mapMark, readPattern_mapMark, Result.mapError_bind]
      rfl
    · simp only [SExpr.mapMark_list, List.map_cons, List.map_nil, SExpr.mapMark_symbol, readDeclaration,
        readName, readResource, readCost, readField_mapMark, readPattern_mapMark, Result.mapError_bind]
      rfl
  · rw [readDeclaration_of_not_form hform, readDeclaration_of_not_form fun h => hform h.of_mapMark]
    rfl

/-- The term declares the tile: `tile`, a name, a resource, its cost unless it is the resource's own, and a
pattern. -/
inductive Declares : SExpr μ → Tile → Prop
  | free (mark head named located : μ) (name : String) {loc : String} {r : Resource} {pattern : SExpr μ}
      {p : Pattern} (hloc : Resource.parse? loc = some r) (hpattern : Pattern.Denotes pattern p) :
      Declares (.list mark [.symbol head "tile", .symbol named name, .symbol located loc, pattern])
        ⟨name, p, .resource r, r.unitCost⟩
  | priced (mark head named located stated : μ) (name : String) {loc digits : String} {r : Resource}
      {cost : Nat} {pattern : SExpr μ} {p : Pattern} (hloc : Resource.parse? loc = some r)
      (hcost : Text.Numeral digits.toList cost) (hlimit : cost < 2 ^ 32)
      (hpattern : Pattern.Denotes pattern p) :
      Declares (.list mark [.symbol head "tile", .symbol named name, .symbol located loc,
        .symbol stated digits, pattern]) ⟨name, p, .resource r, UInt64.ofNat cost⟩

theorem readField_eq_ok_iff {α : Type} {meaning : String → Option α} {cause : DeclarationError}
    {term : SExpr μ} {value : α} :
    readField meaning cause term = .ok value ↔
      ∃ mark text, term = .symbol mark text ∧ meaning text = some value := by
  cases term with
  | list mark items => simp [readField, SExpr.symbol?, blame]
  | symbol mark text => simp [readField_symbol]

theorem cost?_eq_some_iff {digits : String} {cost : UInt64} :
    cost? digits = some cost ↔
      ∃ n, Text.Numeral digits.toList n ∧ n < 2 ^ 32 ∧ cost = UInt64.ofNat n := by
  have hread : ∀ n, (Text.readUnsigned Text.maxUnsigned32 digits).toOption = some n ↔
      Text.Numeral digits.toList n ∧ n < 2 ^ 32 := by
    intro n
    have hlimit : n ≤ Text.maxUnsigned32 ↔ n < 2 ^ 32 := Nat.lt_succ_iff.symm
    rw [← hlimit, ← Text.readUnsigned_eq_ok_iff]
    cases Text.readUnsigned Text.maxUnsigned32 digits <;> simp [Except.toOption]
  simp only [cost?, Option.map_eq_some_iff, hread, and_assoc, @eq_comm _ cost]

theorem readPattern_eq_ok_iff_denotes {term : SExpr μ} {p : Pattern} :
    readPattern term = .ok p ↔ Pattern.Denotes term p := by
  rw [readPattern, Result.mapError_eq_ok_iff, Pattern.read_eq_ok_iff_denotes]

theorem readDeclaration_eq_ok_iff_declares {term : SExpr μ} {tile : Tile} :
    readDeclaration term = .ok tile ↔ Declares term tile := by
  constructor
  · intro h
    by_cases hform : Form term
    · rcases hform.cases with ⟨mark, head, name, loc, pattern, rfl⟩ |
        ⟨mark, head, name, loc, cost, pattern, rfl⟩
      · simp only [readDeclaration, readName, readResource, Result.bind_eq_ok_iff, readField_eq_ok_iff,
          readPattern_eq_ok_iff_denotes, Except.ok.injEq] at h
        obtain ⟨_, ⟨named, _, rfl, ⟨⟩⟩, r, ⟨located, loc, rfl, hloc⟩, p, hpattern, rfl⟩ := h
        exact .free mark head named located _ hloc hpattern
      · simp only [readDeclaration, readName, readResource, readCost, Result.bind_eq_ok_iff,
          readField_eq_ok_iff, readPattern_eq_ok_iff_denotes, Except.ok.injEq] at h
        obtain ⟨_, ⟨named, _, rfl, ⟨⟩⟩, r, ⟨located, loc, rfl, hloc⟩, _, ⟨stated, digits, rfl, hdigits⟩, p,
          hpattern, rfl⟩ := h
        obtain ⟨n, hcost, hlimit, rfl⟩ := cost?_eq_some_iff.mp hdigits
        exact .priced mark head named located stated _ hloc hcost hlimit hpattern
    · rw [readDeclaration_of_not_form hform] at h
      cases h
  · intro h
    cases h with
    | free mark head named located name hloc hpattern =>
      simp only [readDeclaration, readName, readResource, Result.bind_eq_ok_iff, readField_eq_ok_iff,
        readPattern_eq_ok_iff_denotes, Except.ok.injEq]
      exact ⟨name, ⟨named, name, rfl, rfl⟩, _, ⟨located, _, rfl, hloc⟩, _, hpattern, rfl⟩
    | priced mark head named located stated name hloc hcost hlimit hpattern =>
      simp only [readDeclaration, readName, readResource, readCost, Result.bind_eq_ok_iff,
        readField_eq_ok_iff, readPattern_eq_ok_iff_denotes, Except.ok.injEq]
      have hdigits := cost?_eq_some_iff.mpr ⟨_, hcost, hlimit, rfl⟩
      exact ⟨name, ⟨named, name, rfl, rfl⟩, _, ⟨located, _, rfl, hloc⟩, _, ⟨stated, _, rfl, hdigits⟩, _,
        hpattern, rfl⟩

def WellFormed (term : SExpr μ) : Prop := ∃ tile, Declares term tile

theorem wellFormed_iff {term : SExpr μ} : WellFormed term ↔ (readDeclaration term).isOk = true := by
  cases hread : readDeclaration term with
  | ok tile => exact ⟨fun _ => rfl, fun _ => ⟨tile, readDeclaration_eq_ok_iff_declares.mp hread⟩⟩
  | error b =>
    constructor
    · rintro ⟨tile, htile⟩
      cases hread.symm.trans (readDeclaration_eq_ok_iff_declares.mpr htile)
    · intro h
      cases h

instance : DecidablePred (@WellFormed μ) := fun _ => decidable_of_iff _ wellFormed_iff.symm

theorem mem_parts_of_readField_eq_error {α : Type} {meaning : String → Option α}
    {cause : DeclarationError} {term : SExpr μ} {b : Blame μ}
    (h : readField meaning cause term = .error b) : b.term ∈ term.parts := by
  unfold readField at h
  split at h
  · cases h
  · cases h
    exact SExpr.mem_parts_self term

theorem mem_parts_of_readPattern_eq_error {term : SExpr μ} {b : Blame μ}
    (h : readPattern term = .error b) : b.term ∈ term.parts := by
  rw [readPattern] at h
  cases hread : Pattern.read term with
  | ok p =>
    rw [hread] at h
    cases h
  | error cause =>
    rw [hread] at h
    obtain rfl := Except.error.inj h
    exact Pattern.mem_parts_of_read_eq_error hread

/-- What is wrong with a declaration is wrong with a part of it. -/
theorem mem_parts_of_readDeclaration_eq_error {term : SExpr μ} {b : Blame μ}
    (h : readDeclaration term = .error b) : b.term ∈ term.parts := by
  by_cases hform : Form term
  · rcases hform.cases with ⟨mark, head, name, loc, pattern, rfl⟩ |
      ⟨mark, head, name, loc, cost, pattern, rfl⟩
    · simp only [readDeclaration, Result.bind_eq_error_iff] at h
      rcases h with h | ⟨_, -, h | ⟨_, -, h | ⟨_, -, h⟩⟩⟩
      · exact SExpr.mem_parts_of_mem_items (by simp) (mem_parts_of_readField_eq_error h)
      · exact SExpr.mem_parts_of_mem_items (by simp) (mem_parts_of_readField_eq_error h)
      · exact SExpr.mem_parts_of_mem_items (by simp) (mem_parts_of_readPattern_eq_error h)
      · cases h
    · simp only [readDeclaration, Result.bind_eq_error_iff] at h
      rcases h with h | ⟨_, -, h | ⟨_, -, h | ⟨_, -, h | ⟨_, -, h⟩⟩⟩⟩
      · exact SExpr.mem_parts_of_mem_items (by simp) (mem_parts_of_readField_eq_error h)
      · exact SExpr.mem_parts_of_mem_items (by simp) (mem_parts_of_readField_eq_error h)
      · exact SExpr.mem_parts_of_mem_items (by simp) (mem_parts_of_readField_eq_error h)
      · exact SExpr.mem_parts_of_mem_items (by simp) (mem_parts_of_readPattern_eq_error h)
      · cases h
  · rw [readDeclaration_of_not_form hform] at h
    cases h
    exact SExpr.mem_parts_self term

section

variable {ε ε' α β : Type}

/-- One error for each step that fails, in their order. -/
theorem forall₂_errors (f : α → Except ε β) (xs : List α) :
    List.Forall₂ (fun x e => f x = .error e) (xs.filter fun x => !(f x).isOk)
      (partitionResults (xs.map f)).2 := by
  induction xs with
  | nil => exact .nil
  | cons x xs ih =>
    rw [List.map_cons]
    cases hx : f x with
    | ok b =>
      rw [partitionResults_ok, List.filter_cons_of_neg (by simp [hx, Except.isOk, Except.toBool])]
      exact ih
    | error e =>
      rw [partitionResults_error, List.filter_cons_of_pos (by simp [hx, Except.isOk, Except.toBool])]
      exact .cons hx ih

theorem partitionResults_mapError (f : ε → ε') (results : List (Except ε α)) :
    partitionResults (results.map (Except.mapError f)) =
      ((partitionResults results).1, (partitionResults results).2.map f) := by
  induction results with
  | nil => rfl
  | cons result results ih =>
    rw [List.map_cons]
    cases result with
    | ok a => rw [Except.mapError, partitionResults_ok, partitionResults_ok, ih]
    | error e => rw [Except.mapError, partitionResults_error, partitionResults_error, ih, List.map_cons]

/-- Lists with the same images have the same images under all functions that tell less. -/
theorem map_eq_map_of_imp {γ δ : Type} {f : α → γ} {g : β → γ} {f' : α → δ} {g' : β → δ}
    (himp : ∀ a b, f a = g b → f' a = g' b) {xs : List α} {ys : List β} (h : xs.map f = ys.map g) :
    xs.map f' = ys.map g' := by
  induction xs generalizing ys with
  | nil =>
    obtain rfl := List.map_eq_nil_iff.mp h.symm
    rfl
  | cons x xs ih =>
    obtain ⟨y, ys, rfl, hy, hys⟩ := List.map_eq_cons_iff.mp h.symm
    rw [List.map_cons, List.map_cons, himp x y hy.symm, ih hys.symm]

end

theorem forall₂_blames (terms : List (SExpr μ)) :
    List.Forall₂ (fun term b => readDeclaration term = .error b)
      (terms.filter fun term => ¬ WellFormed term) (partitionResults (terms.map readDeclaration)).2 := by
  have hfilter : (terms.filter fun term => ¬ WellFormed term) =
      terms.filter fun term => !(readDeclaration term).isOk := by
    refine List.filter_congr fun term _ => ?_
    simp [wellFormed_iff]
  rw [hfilter]
  exact forall₂_errors readDeclaration terms

theorem syntaxError_of_stands {spans : SpanMap Nat} {b : Blame Nat} {located : Blame Span}
    (h : b.mapMark spans.get? = located.mapMark some) :
    spans.syntaxError b.term.mark b.cause.message =
      .ok ⟨spans.file, located.term.mark, located.cause.message⟩ := by
  obtain ⟨hterm, hcause⟩ := Blame.mk.inj h
  have hmark := congrArg SExpr.mark hterm
  rw [SExpr.mark_mapMark, SExpr.mark_mapMark] at hmark
  rw [SpanMap.syntaxError, SpanMap.get, hmark, hcause]
  rfl

/-- Looking up the terms that are blamed gives their marks. -/
theorem ofRecorded_eq_ok (file : File) : ofRecorded file = .ok (ofDeclarations file) := by
  rw [ofRecorded, ofDeclarations]
  cases hparse : SExpr.parseFile file with
  | error error =>
    obtain ⟨cause, hrecord, rfl⟩ := SExpr.exists_record_of_parseFile_error hparse
    rw [hrecord]
  | ok terms =>
    obtain ⟨numbered, spans, hrecord, rfl, hstands, -, -⟩ := SExpr.exists_record_of_parseFile hparse
    have hresults : (numbered.map readDeclaration).map (Except.mapError (Blame.mapMark spans.get?)) =
        (terms.map readDeclaration).map (Except.mapError (Blame.mapMark some)) := by
      rw [List.map_map, List.map_map]
      refine map_eq_map_of_imp (fun a b hab => ?_) hstands
      rw [Function.comp_apply, Function.comp_apply, ← readDeclaration_mapMark, ← readDeclaration_mapMark, hab]
    have hparts := congrArg partitionResults hresults
    rw [partitionResults_mapError, partitionResults_mapError] at hparts
    obtain ⟨htiles, hblames⟩ := Prod.mk.inj hparts
    have hlookup : (partitionResults (numbered.map readDeclaration)).2.mapM
        (fun b => spans.syntaxError b.term.mark b.cause.message) =
          .ok ((partitionResults (terms.map readDeclaration)).2.map
            fun b => ⟨spans.file, b.term.mark, b.cause.message⟩) := by
      rw [Result.mapM_eq_ok_iff, List.map_map]
      exact map_eq_map_of_imp (fun _ _ => syntaxError_of_stands) hblames
    rw [hrecord]
    simp only [hlookup, htiles, Result.ok_bind, List.isEmpty_map]

/-- A text that is not read as terms gives no catalog, and its one error.  If all terms are well formed, the catalog
has their tiles in order.  Otherwise there is no catalog, and one error for each term that is not, in their order:
it is located at a part of the term, and so inside it.  The same comes of looking the parts up in the spans on
record, which never fails. -/
theorem ofDeclarations_all_or_nothing (file : File) :
    (∀ error, SExpr.parseFile file = .error error → ofDeclarations file = .error [error]) ∧
    (∀ terms, SExpr.parseFile file = .ok terms →
      ((∀ term ∈ terms, WellFormed term) →
        ∃ tiles, List.Forall₂ Declares terms tiles ∧ ofDeclarations file = .ok ⟨tiles⟩) ∧
      ((∃ term ∈ terms, ¬ WellFormed term) →
        ∃ errors, ofDeclarations file = .error errors ∧
          List.Forall₂ (fun term error => error.file = file ∧
            (∃ part ∈ term.parts, error.span = part.mark) ∧
            term.mark.start ≤ error.span.start ∧ error.span.stop ≤ term.mark.stop)
            (terms.filter fun term => ¬ WellFormed term) errors)) ∧
    ofRecorded file = .ok (ofDeclarations file) := by
  refine ⟨fun error hparse => ?_, fun terms hparse => ⟨fun hall => ?_, ?_⟩, ofRecorded_eq_ok file⟩
  · rw [ofDeclarations, hparse]
  · have hblames := forall₂_blames terms
    have hnone : (terms.filter fun term => ¬ WellFormed term) = [] := by
      simpa [List.filter_eq_nil_iff] using hall
    rw [hnone, List.forall₂_nil_left_iff] at hblames
    have htiles := partitionResults_map_eq_iff.mp (Prod.ext rfl hblames)
    refine ⟨_, htiles.imp fun _ _ => readDeclaration_eq_ok_iff_declares.mp, ?_⟩
    exact (ofDeclarations_eq_ok_iff hparse).mpr htiles
  · rintro ⟨term, hterm, hbad⟩
    have hblames := forall₂_blames terms
    have hmem : ∀ term ∈ terms.filter (fun term => ¬ WellFormed term), term ∈ terms :=
      fun term hterm => (List.mem_filter.mp hterm).1
    have hsome : ¬ (partitionResults (terms.map readDeclaration)).2.isEmpty = true := by
      rw [List.isEmpty_iff]
      intro hnone
      rw [hnone, List.forall₂_nil_right_iff, List.filter_eq_nil_iff] at hblames
      exact hblames term hterm (by simpa using hbad)
    have herrors : ofDeclarations file = .error ((partitionResults (terms.map readDeclaration)).2.map
        fun b => ⟨file, b.term.mark, b.cause.message⟩) := by
      rw [ofDeclarations, hparse]
      exact if_neg hsome
    refine ⟨_, herrors, List.forall₂_map_right_iff.mpr ?_⟩
    refine ((List.forall₂_and_left _ _).mpr ⟨hmem, hblames⟩).imp ?_
    rintro term b ⟨hterm, hread⟩
    have hpart := mem_parts_of_readDeclaration_eq_error hread
    exact ⟨rfl, ⟨b.term, hpart, rfl⟩, SExpr.within_of_parseFile hparse hterm hpart⟩

/-- A declaration, a text where two of three terms declare nothing, and a list that is not closed. -/
theorem ofDeclarations_all_or_nothing_three :
    (∃ tile, ofDeclarations ⟨"", "(tile a lut 07 add)".toList⟩ = .ok ⟨[tile]⟩) ∧
    (∃ first second, ofDeclarations ⟨"", "(tile a lut add)x(tile b mem mul)".toList⟩ =
        .error [first, second] ∧ first.span.stop ≤ 17 ∧ 17 ≤ second.span.start) ∧
    ofDeclarations ⟨"", "(tile".toList⟩ =
      .error [⟨⟨"", "(tile".toList⟩, Span.point 5, "unexpected end-of-file"⟩] := by
  have hone : (SExpr.parseFile ⟨"", "(tile a lut 07 add)".toList⟩).map
      (fun terms => (decide (∀ term ∈ terms, WellFormed term), terms.length)) = .ok (true, 1) := by
    decide +kernel
  have hthree : (SExpr.parseFile ⟨"", "(tile a lut add)x(tile b mem mul)".toList⟩).map
      (List.map fun term => (decide (WellFormed term), term.mark)) =
        .ok [(true, Span.between 0 16), (false, Span.between 16 17), (false, Span.between 17 33)] := by
    decide +kernel
  have hopen : (SExpr.parseFile ⟨"", "(tile".toList⟩).map List.length =
      .error ⟨⟨"", "(tile".toList⟩, Span.point 5, "unexpected end-of-file"⟩ := by
    decide +kernel
  refine ⟨?_, ?_, (ofDeclarations_all_or_nothing _).1 _ (Result.map_eq_error_iff.mp hopen)⟩
  · obtain ⟨terms, hparse, hterms⟩ := Result.map_eq_ok_iff.mp hone
    obtain ⟨hgood, hlength⟩ := Prod.mk.inj hterms
    obtain ⟨tiles, htiles, hread⟩ :=
      ((ofDeclarations_all_or_nothing _).2.1 terms hparse).1 (of_decide_eq_true hgood)
    obtain ⟨tile, rfl⟩ := List.length_eq_one_iff.mp (htiles.length_eq.symm.trans hlength)
    exact ⟨tile, hread⟩
  · obtain ⟨terms, hparse, hterms⟩ := Result.map_eq_ok_iff.mp hthree
    simp only [List.map_eq_cons_iff, List.map_eq_nil_iff, Prod.mk.injEq, decide_eq_true_eq,
      decide_eq_false_iff_not] at hterms
    obtain ⟨good, _, rfl, ⟨hgood, -⟩, bad, _, rfl, ⟨hbad, hstop⟩, worse, _, rfl, ⟨hworse, hstart⟩, rfl⟩ :=
      hterms
    obtain ⟨errors, hread, herrors⟩ :=
      ((ofDeclarations_all_or_nothing _).2.1 _ hparse).2 ⟨bad, by simp, hbad⟩
    have hfilter : [good, bad, worse].filter (fun term => ¬ WellFormed term) = [bad, worse] := by
      simp [hgood, hbad, hworse]
    rw [hfilter] at herrors
    simp only [List.forall₂_cons_left_iff, List.forall₂_nil_left_iff] at herrors
    obtain ⟨first, _, ⟨-, -, -, hfirst⟩, ⟨second, _, ⟨-, -, hsecond, -⟩, rfl, rfl⟩, rfl⟩ := herrors
    rw [hstop] at hfirst
    rw [hstart] at hsecond
    exact ⟨first, second, hread, hfirst, hsecond⟩

end Catalog
end TileSelect
