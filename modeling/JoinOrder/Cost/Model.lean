import JoinOrder.Cardinality.Checked
import JoinOrder.Cost.Formula
import JoinOrder.Value.Shown

/-! # The cost model

How cost constants are given and measured, and what the strategies cost with them
(`CostModel.costs`). -/

namespace JoinOrder

/-- The strategy that a value is or names. -/
def JoinStrategy.ofValue? (given : Value) : Checked JoinStrategy := do
  given.requireKey
  match given with
  | .tag (.strategy s) => return s
  | given =>
    match JoinStrategy.all.find? fun s => Value.eq (.text s.text) given with
    | some s => return s
    | none => throw (.usage (.unknownStrategy given))

namespace CostModel

/-- Reads a constant, which is a finite number that is not negative. -/
def parseConstant (name : String) (given : Value) : Checked Number :=
  let invalid : Checked Number := .error (.usage (.invalidCost name given))
  match given with
  | .int n =>
    if (Binary64.ofInt? n).isNone then .error .tooLarge else if n < 0 then invalid else .ok (.int n)
  | .real x => if !x.isFinite || x.lt 0 then invalid else .ok (.real x)
  | _ => invalid

/-- The value under a name, or one. -/
def constantOr1 (given : List (String × Value)) (name : String) : Value :=
  (given.lookup name).getD (.real 1)

/-- The model with the given constants; those that are absent are one. -/
def declare? (given : List (String × Value)) : Checked CostModel := do
  if given.any fun (name, _) => name ∉ unit.fields.map Prod.fst then
    throw (.mismatch .unknownOption)
  let constant (name : String) := parseConstant name (constantOr1 given name)
  return {
    iterateCost := ← constant "iterate_cost"
    lookupCost := ← constant "lookup_cost"
    membershipCost := ← constant "membership_cost" }

/-- The names that no constant has, in order. -/
def unknownNames (names : List Value) : Checked (List Value) := do
  names.forM Value.requireKey
  let known := unit.fields.map fun (name, _) => Value.text name
  Sorting.sort Value.lt ((Value.distinct names).filter fun x => !known.any (Value.eq x))

/-- Reads a model from a map. Values are converted to double-precision numbers. -/
def load? (given : Value) : Checked CostModel := do
  let names ← given.elements
  let unknown ← unknownNames names
  if unknown ≠ [] then throw (.usage (.unknownCosts unknown))
  match given with
  | .map entries =>
    let constants ← entries.mapM fun (name, v) => do
      return (← name.requireText, Value.real (← v.toBinary64))
    declare? constants
  | _ => throw .unsupported

/-- What a text among numbers is read as. Texts are padded with NUL characters there, so those at
the end do not count. -/
def paddedNumber (s : String) : Checked Binary64 :=
  let kept := String.ofList (s.toList.reverse.dropWhile (· = '\x00')).reverse
  match Binary64.read? kept with
  | some x => .ok x
  | none => .error (.usage (.notANumberText kept))

/-- The least integer that does not fit into a word. -/
def wordLimit : Int := 0x10000000000000000

/-- The costs of a probe as a factor beside `c1`. Null is an undefined number, a sequence is no factor
at all. A text is read on its own if `c1` does not fit into a word. -/
def probeFactor (c1 : Number) (probe : Value) : Checked Binary64 :=
  match probe with
  | .null => .ok .nan
  | .list _ | .tuple _ => .error (.usage .unevenFactors)
  | .text s =>
    match c1 with
    | .int n => if n < wordLimit then paddedNumber s else probe.toBinary64
    | .real _ => paddedNumber s
  | probe => probe.toBinary64

/-- What probing costs: nothing if a factor is zero, and then the other ones are not looked at. -/
def iteration (c1 : Number) (bound : Binary64) (probe : Value) : Checked Binary64 := do
  let each ← c1.rounded
  if bound.isZero || each.isZero || Value.eq (.int 0) probe then return 0
  return bound * each * (← probeFactor c1 probe)

/-- The costs of all strategies. Unknown sizes have none. -/
def costs (m : CostModel) (bound large : Binary64) (probe : Value) :
    Checked (StrategyCosts Binary64) := do
  if bound.isNaN || large.isNaN then throw (.usage (.unknownSizes bound large))
  let iterate ← iteration m.iterateCost bound probe
  return CostArithmetic.double.costsOf (← m.lookupCost.rounded) (← m.membershipCost.rounded) bound
    large iterate

end CostModel

namespace StrategyCosts

variable {α : Type}

/-- The strategy with the least costs, the first of equally cheap ones. -/
def cheapestBy (lt : α → α → Checked Bool) (c : StrategyCosts α) : Checked JoinStrategy :=
  Sorting.least (fun s t => lt (c.of s) (c.of t)) .iterate [.intermediate, .filter]

def cheapest (c : StrategyCosts Binary64) : JoinStrategy := CostArithmetic.double.cheapest c

end StrategyCosts

/-- Measured times for one operation of each kind. -/
structure Timings where
  iterate : Binary64
  lookup : Binary64
  membership : Binary64

namespace CostModel

mutual

/-- A part of a seed is an integer that is not negative, which may be written as a text, in
hexadecimal digits after the mark `0x`; or it is a sequence of parts. -/
def requireSeedPart : Value → Checked Unit
  | .int n => if n < 0 then .error (.usage .negativeSeed) else .ok ()
  | .bool _ => .ok ()
  | .text s =>
    if s.startsWith "0x" then
      if (Text.readHexadecimal s).isSome then .ok () else .error (.usage (.notAnInteger 16 s))
    else if (s.toList.take 1).any Char.isDigit then (Value.parseInteger s).map fun _ => ()
    else .error (.usage .unreadableSeed)
  | .list xs | .tuple xs | .set xs | .sealedSet xs => requireSeedParts xs
  | .map entries => requireSeedKeys entries
  | _ => .error (.mismatch .notANumber)

def requireSeedParts : List Value → Checked Unit
  | [] => .ok ()
  | x :: xs => do
    requireSeedPart x
    requireSeedParts xs

def requireSeedKeys : List (Value × Value) → Checked Unit
  | [] => .ok ()
  | (k, _) :: rest => do
    requireSeedPart k
    requireSeedKeys rest

end

/-- A seed is an integer or a sequence; null leaves it open. -/
def requireSeed (seed : Value) : Checked Unit :=
  match seed with
  | .null => .ok ()
  | .int _ | .bool _ | .list _ | .tuple _ => requireSeedPart seed
  | _ => do
    seed.requireShown
    throw (.mismatch .notANumber)

/-- A number of things, which has to be an integer. -/
def requireCount (count : Value) : Checked Unit :=
  if count.integer?.isSome then .ok () else .error (.mismatch .notANumber)

/-- The samples are drawn from four times as many integers, which have to fit into a signed word, and
take eight bytes each, whose number has to fit as well. -/
def requireSamples (samples : Value) : Checked Unit := do
  let range ← match samples with
    | .cardinality c => do pure (some ((← (c * .known 4).value) : Int))
    | v =>
      match v.number? with
      | some (.int n) => pure (some (4 * n))
      | some (.real x) =>
        match (4 : Binary64) * x with
        | .nan => throw (.usage .undefinedSample)
        | .infinity _ => throw .tooLarge
        | y => pure (some (Binary64.floorDyadic y.value))
      | none => pure none
  if range.any fun n => 0x8000000000000000 < n then throw (.usage .sampleOutOfRange)
  requireCount samples
  if samples.integer?.any fun n => !inWord (8 * n) then throw (.usage .tooManySamples)

/-- Calibration needs something to measure, and a seed that random numbers can be drawn from. -/
def requireMeasurable (samples repetitions seed : Value) : Checked Unit := do
  if ← samples.lt (.int 1) then throw (.usage .emptyCalibration)
  if ← repetitions.lt (.int 1) then throw (.usage .emptyCalibration)
  requireSeed seed
  requireSamples samples
  requireCount repetitions

/-- The constants in units of a membership test, if that took any time. -/
def ofTimings (t : Timings) : Checked CostModel :=
  let baseline := if (0 : Binary64).lt t.membership then t.membership else 1
  declare? [("iterate_cost", .real (t.iterate.divPositive baseline)),
    ("lookup_cost", .real (t.lookup.divPositive baseline)),
    ("membership_cost", .real (t.membership.divPositive baseline))]

/-- What the name of a preset stands for. -/
inductive Preset
  | unit
  | calibrated
deriving DecidableEq

/-- The preset with a name, in any case. -/
def Preset.ofName? (given : Value) : Checked Preset :=
  match given with
  | .text name =>
    if name.toLower = "unit" then .ok .unit
    else if name.toLower = "calibrated" then .ok .calibrated
    else .error (.usage (.unknownPreset name))
  | _ => .error .unsupported

end CostModel
end JoinOrder
