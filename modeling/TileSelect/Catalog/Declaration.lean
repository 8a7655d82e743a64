import TileSelect.Catalog.Basic
import TileSelect.Pattern.Reader
import TileSelect.SExpr.Record
import TileSelect.Text.Decimal

/-! # Catalogs as declarations

A catalog text is a sequence of declarations `(tile name loc pattern)` or `(tile name loc cost pattern)`.  Every
declaration is looked at, each that is wrong gives one error, and there is a catalog only if none is.  An error is
blamed on a term, and is located by the mark of that term or by looking the term up in the spans on record. -/
namespace TileSelect.Catalog

inductive DeclarationError where
  /-- Not of the form of a declaration. -/
  | notDeclaration
  /-- The name is a list. -/
  | invalidName
  /-- The resource is not known. -/
  | unknownResource
  /-- The cost is no decimal numeral of 32 bits. -/
  | invalidCost
  /-- The pattern is none. -/
  | pattern (cause : Pattern.ReadError)
  deriving DecidableEq

def DeclarationError.message : DeclarationError → String
  | .notDeclaration => "expected (tile name loc [cost] pattern)"
  | .invalidName => "invalid tile name"
  | .unknownResource => "unknown resource"
  | .invalidCost => "invalid cost"
  | .pattern cause => cause.message

/-- A declaration error and the term it is blamed on. -/
structure Blame (μ : Type) where
  term : SExpr μ
  cause : DeclarationError

variable {μ : Type}

def blame {α : Type} (term : SExpr μ) (cause : DeclarationError) : Except (Blame μ) α :=
  .error ⟨term, cause⟩

/-- What a symbol stands for in its place of a declaration. -/
def readField {α : Type} (meaning : String → Option α) (cause : DeclarationError) (term : SExpr μ) :
    Except (Blame μ) α :=
  match term.symbol?.bind meaning with
  | some value => .ok value
  | none => blame term cause

def readName (term : SExpr μ) : Except (Blame μ) String := readField some .invalidName term

def readResource (term : SExpr μ) : Except (Blame μ) Resource :=
  readField Resource.parse? .unknownResource term

/-- The cost that a numeral of 32 bits states. -/
def cost? (digits : String) : Option UInt64 :=
  (Text.readUnsigned Text.maxUnsigned32 digits).toOption.map UInt64.ofNat

def readCost (term : SExpr μ) : Except (Blame μ) UInt64 := readField cost? .invalidCost term

def readPattern (term : SExpr μ) : Except (Blame μ) Pattern :=
  (Pattern.read term).mapError fun b => ⟨b.term, .pattern b.cause⟩

def readDeclaration (term : SExpr μ) : Except (Blame μ) Tile :=
  match term with
  | .list _ [.symbol _ "tile", name, loc, pattern] => do
    let name ← readName name
    let r ← readResource loc
    let pattern ← readPattern pattern
    .ok ⟨name, pattern, .resource r, r.unitCost⟩
  | .list _ [.symbol _ "tile", name, loc, cost, pattern] => do
    let name ← readName name
    let r ← readResource loc
    let cost ← readCost cost
    let pattern ← readPattern pattern
    .ok ⟨name, pattern, .resource r, cost⟩
  | term => blame term .notDeclaration

/-- The values of the successes and the errors of the failures, each in order. -/
def partitionResults {ε α : Type} (results : List (Except ε α)) : List α × List ε :=
  (results.filterMap (fun | .ok a => some a | .error _ => none),
   results.filterMap (fun | .ok _ => none | .error e => some e))

def ofDeclarations (file : File) : Except (List SyntaxError) Catalog :=
  match SExpr.parseFile file with
  | .error error => .error [error]
  | .ok terms =>
    let (tiles, blames) := partitionResults (terms.map readDeclaration)
    if blames.isEmpty then .ok ⟨tiles⟩
    else .error (blames.map fun b => ⟨file, b.term.mark, b.cause.message⟩)

/-- The catalog that a file declares, or its errors, where a blamed term is looked up in the spans on record. -/
def ofRecorded (file : File) : Except Fault (Except (List SyntaxError) Catalog) :=
  match SExpr.record file with
  | .error (.fault fault) => .error fault
  | .error (.malformed error) => .ok (.error [error.toSyntaxError SExpr.ReadError.message file])
  | .ok (terms, spans) => do
    let (tiles, blames) := partitionResults (terms.map readDeclaration)
    let errors ← blames.mapM fun b => spans.syntaxError b.term.mark b.cause.message
    .ok (if errors.isEmpty then .ok ⟨tiles⟩ else .error errors)

end TileSelect.Catalog
