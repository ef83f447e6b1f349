import AngleSeries.Decimal.Text
import AngleSeries.Fault
import AngleSeries.Json.Printer
import AngleSeries.Value.Text

/-!
# Canonical documents

A value is brought into a document in two steps. `Value.normalize` resolves everything that JSON
lacks: integers of any size and decimals become texts, maps become objects, stand-ins are replaced
by what stands behind them, and absent values vanish from objects and leave `null` elsewhere. The
members of an object are taken in the order of the code units of their keys, so the first fault does
not depend on the order of insertion; they are then put into an object, whose own order decides how
they are written. Numbers are written without a plus sign in the exponent.

Every object that is filled inherits the name `__proto__`, the link to what it inherits from. As long
as it does, an entry of that name goes into the link and is no member. A link to null ends the
inheritance, and from then on an entry `__proto__` is a member like any other.
-/

namespace AngleSeries

namespace Canonical

/-- The name that objects inherit for what they inherit from. -/
def linkName : Text := "__proto__"

/-- A document, with what it leaves to an object that is given it as its link. -/
structure Form where
  document : Json
  /-- Whether such an object still inherits the link. -/
  linked : Bool

/-- A document other than null, which leaves nothing, is no obstacle to inheriting. -/
def Form.ofDocument (document : Json) : Form :=
  ⟨document, !document.isNull⟩

/-- An object that is being filled. -/
structure Filling where
  members : Members Json := []
  linked : Bool := true

namespace Filling

/-- Puts an entry, of two with one key the later counts. An entry named by an inherited link only
changes the link. -/
def put (filling : Filling) (key : Text) (form : Form) : Filling :=
  if key = linkName ∧ filling.linked then { filling with linked := form.linked }
  else { filling with members := filling.members.put key form.document }

def form (filling : Filling) : Form :=
  ⟨.object filling.members, filling.linked⟩

end Filling

/-- The object with the entries that have a document, put from left to right. -/
def gather (entries : List (Text × Option Form)) : Filling :=
  entries.foldl (fun filling entry => entry.2.elim filling (filling.put entry.1)) {}

end Canonical

namespace Value

open Canonical

def integerText (value : Int) : Json :=
  .string (Numeral.intText value)

/-- Entries sorted by key, equal keys in the order given. -/
def sortEntries {α : Type} (entries : List (Text × α)) : List (Text × α) :=
  entries.mergeSort fun a b => Text.keyLE a.1 b.1

/-- The first fault among sorted outcomes, or all of them. -/
def collect : List (Text × Except Fault (Option Form)) →
    Except Fault (List (Text × Option Form))
  | [] => .ok []
  | (key, outcome) :: rest => do
    let form ← outcome
    let rest ← collect rest
    .ok ((key, form) :: rest)

def assemble (outcomes : List (Text × Except Fault (Option Form))) :
    Except Fault (Option Form) := do
  let entries ← collect (sortEntries outcomes)
  .ok (some (gather entries).form)

mutual

/-- The document of a value; `none` for a value that vanishes. -/
def normalize : Value → Except Fault (Option Form)
  | .absent | .procedure _ | .symbol _ => .ok none
  | .null => .ok (some (.ofDocument .null))
  | .bool value => .ok (some (.ofDocument (.bool value)))
  | .number value =>
    if !value.isFinite then .error (.nonFiniteNumber value.text)
    else .ok (some (.ofDocument (.number (if value.isZero then 0 else value))))
  | .integer value => .ok (some (.ofDocument (integerText value)))
  | .string value => .ok (some (.ofDocument (.string value)))
  | .decimal value => .ok (some (.ofDocument (.string value.signedText)))
  | .array items => (normalizeItems items).map fun items => some (.ofDocument (.array items))
  | .object kind members =>
    if isWithdrawn members then .ok none
    else if kind = .instanceOf then .error (.unsupported "Object")
    else assemble (normalizeMembers members)
  | .map entries =>
    if entries.all fun entry => entry.1.label?.isSome then assemble (normalizeEntries entries)
    else .error .wrongKind
  | .standIn value => normalize value
  | .date instant => .ok (some (.ofDocument (Json.ofInstant instant)))
  | .set _ => .error (.unsupported "Set")
  | .error _ => .error (.unsupported "Error")
  | .pattern _ => .error (.unsupported "RegExp")

/-- The documents of array items; a value that vanishes leaves `null`. -/
def normalizeItems : List Value → Except Fault (List Json)
  | [] => .ok []
  | item :: items => do
    let form ← normalize item
    let rest ← normalizeItems items
    .ok ((form.map Form.document).getD .null :: rest)

def normalizeMembers : List (Text × Value) → List (Text × Except Fault (Option Form))
  | [] => []
  | (key, value) :: members => (key, normalize value) :: normalizeMembers members

/-- The outcome for each entry of a map, under the text of its key. -/
def normalizeEntries : List (Value × Value) → List (Text × Except Fault (Option Form))
  | [] => []
  | (key, value) :: entries => (key.label?.getD "", normalize value) :: normalizeEntries entries

end

end Value

namespace Canonical

/-- The text of a number: zero without a sign, exponents without a plus. -/
def numberText (x : Double) : Text :=
  x.textWith Double.unsignedLayout

def maxIndent : Nat := 10

/-- One level of indentation for an option, which counts only if it is a positive number. -/
def indentUnit : Value → Option Text
  | .number width =>
    if Double.lt 0 width then
      let blanks := if Double.lt width (Double.ofNat maxIndent)
        then ((width.floor?).getD 0).toNat else maxIndent
      some ⟨List.replicate blanks 0x20⟩
    else none
  | _ => none

def writeDocument (indent : Option Text) (document : Json) : Text :=
  Json.write ⟨numberText, indent⟩ 0 document

def write (value : Value) (indent : Value) : Except Fault Text := do
  let form ← value.normalize
  .ok (writeDocument (indentUnit indent) ((form.map Form.document).getD .null))

end Canonical

end AngleSeries
