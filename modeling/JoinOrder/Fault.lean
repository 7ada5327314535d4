import JoinOrder.Label
import JoinOrder.Source.Schema

/-! # Faults

Everything that can go wrong, as causes. `SchemaFault` is raised while something is declared and
keeps the offending value, `UsageFault` by the wrong use of something that was declared. The
wording of both stands in `SchemaFault.message` and `UsageFault.message`. -/

namespace JoinOrder

/-- A malformed declaration. -/
inductive SchemaFault
  | unknownKind (given : Value)
  | invalidName (given : Value)
  | duplicateName (name : Value)
  | sortedPrefixShape (given : Value)
  | sortedLengthOutOfRange (given : Int)
  | sortedOffsetOutOfRange (given : Value)
  | sortedOffsetsNotIncreasing (offsets : List Nat)
  | sortedStream (given : Value)
  | notSourcePermutation (attributes : List Value)
  | typeCount (attributes types : Nat)
  | noSource (relation : Value)
  | incompletePrimary (missing : List Value)
  | unusableAuxiliary (source : Schema)
  | foreignConstraint (unknown : List Value)
  | notRelationPermutation (attributes : List Value)
  | lowerBound (given : Value)
  | upperBound (given : Value)
  | infiniteLowerBound (given : Value)
  | boundsCrossed (lower upper : Value)
  | domainMeetsRange (shared : List Value)
deriving Inhabited

namespace SchemaFault

/-- The value that caused the fault; a source has no form as a value. -/
def value? : SchemaFault → Option Value
  | unknownKind v | invalidName v | sortedPrefixShape v | sortedOffsetOutOfRange v
  | sortedStream v | noSource v | lowerBound v | upperBound v | infiniteLowerBound v
  | duplicateName v => some v
  | sortedLengthOutOfRange n => some (.int n)
  | sortedOffsetsNotIncreasing offsets => some (.tuple (offsets.map Value.ofNat))
  | notSourcePermutation names | notRelationPermutation names => some (.tuple names)
  | typeCount m n => some (.tuple [.ofNat m, .ofNat n])
  | incompletePrimary names | foreignConstraint names | domainMeetsRange names =>
    some (.list names)
  | boundsCrossed lower upper => some (.tuple [lower, upper])
  | unusableAuxiliary _ => none

/-- What is wrong, without the value. -/
def summary : SchemaFault → String
  | unknownKind _ => "Unknown source kind"
  | invalidName _ => "Invalid attribute name"
  | duplicateName _ => "Duplicate attribute name"
  | sortedPrefixShape _ => "Sorted prefix must be a length or a sequence of offsets"
  | sortedLengthOutOfRange _ => "Sorted prefix length out of range"
  | sortedOffsetOutOfRange _ => "Sorted prefix offset out of range"
  | sortedOffsetsNotIncreasing _ => "Sorted prefix offsets must be strictly increasing"
  | sortedStream _ => "Streams can only be searched on their position, not on attributes"
  | notSourcePermutation _ => "View attributes must be a permutation of the source attributes"
  | typeCount _ _ => "Number of attribute names and types differs"
  | noSource _ => "Relation requires at least one source"
  | incompletePrimary _ => "Primary source does not provide all relation attributes"
  | unusableAuxiliary _ =>
    "Auxiliary source neither covers the relation nor refers to primary positions"
  | foreignConstraint _ => "Degree constraint refers to unknown attributes"
  | notRelationPermutation _ => "View attributes must be a permutation of the relation attributes"
  | lowerBound _ => "Lower bound must be a non-negative integer"
  | upperBound _ => "Upper bound must be a non-negative integer"
  | infiniteLowerBound _ => "Lower bound must be finite"
  | boundsCrossed _ _ => "Lower bound exceeds upper bound"
  | domainMeetsRange _ => "Domain and range of a degree constraint must be disjoint"

/-- The summary and the offending value, unless that is null. -/
def message (f : SchemaFault) : String :=
  match f with
  | unusableAuxiliary source => f.summary ++ ": " ++ source.description
  | _ =>
    match f.value? with
    | none | some .null => f.summary
    | some v => f.summary ++ ": " ++ v.description

end SchemaFault

/-- The wrong use of something that was declared. Relations and atoms appear by their labels. -/
inductive UsageFault
  | negativeCardinality (given : Number)
  | foreignColumns (names : List Value) (source : Schema)
  | foreignAttributes (names : List Value) (relation : Label)
  | keyLength (given : Value) (sortKey : List Value)
  | keyTooLong (given : List Value) (sortKey : List Value)
  | streamSearched (given : List Value)
  | positionTooLarge
  | invalidLimit
  | negativeLimit
  | unmappedVariable (given : Value) (relation : Label)
  | notAnAttribute (given : Value) (relation : Label)
  | attributeReused (given : Value) (relation : Label)
  | nothingBound (relation : Label)
  | noAtoms
  | foreignConstants (names : List Value)
  | notInAtom (variableName : Name) (atom : Label)
  | invalidCost (name : String) (given : Value)
  | unknownCosts (names : List Value)
  | unknownSizes (bound large : Binary64)
  | notANumber (given : Value)
  | notAnInteger (base : Nat) (given : String)
  | notANumberText (given : String)
  | unevenFactors
  | undefinedSample
  | sampleOutOfRange
  | tooManySamples
  | unknownPreset (key : String)
  | emptyCalibration
  | negativeSeed
  | unreadableSeed
  | unknownStrategy (given : Value)
  | nullNode
  | itemCount (expected given : Nat)
  | attributeLength (index given : Nat)
deriving Inhabited

namespace UsageFault

/-- How much is shown of a text that is no integer. -/
def shownLength : Nat := 200

def tupleText (xs : List Value) : String := Value.description (.tuple xs)

def listText (xs : List Value) : String := Value.description (.list xs)

def message : UsageFault → String
  | negativeCardinality x => "Cardinalities cannot be negative: " ++ x.text
  | foreignColumns names source =>
    "Attributes " ++ listText names ++ " are not provided by source " ++ source.text
  | foreignAttributes names relation =>
    "Attributes " ++ listText names ++ " do not belong to relation " ++ relation.text
  | keyLength n sortKey =>
    "Prefix length " ++ n.display ++ " does not fit the sort key " ++ tupleText sortKey
  | keyTooLong given sortKey =>
    "Prefix " ++ tupleText given ++ " is longer than the sort key " ++ tupleText sortKey
  | streamSearched given =>
    "Streams cannot be searched by attribute values, got prefix " ++ tupleText given
  | positionTooLarge | invalidLimit =>
    "Stop argument for islice() must be None or an integer: 0 <= x <= sys.maxsize."
  | negativeLimit =>
    "Indices for islice() must be None or an integer: 0 <= x <= sys.maxsize."
  | unmappedVariable given relation =>
    "Variable " ++ given.display ++ " is not mapped to any attribute of " ++ relation.text
  | notAnAttribute given relation =>
    "Attribute " ++ given.display ++ " does not belong to relation " ++ relation.text
  | attributeReused given relation =>
    "Attribute " ++ given.display ++ " of relation " ++ relation.text ++
      " is bound to multiple variables"
  | nothingBound relation => "Atom over " ++ relation.text ++ " does not bind any variables"
  | noAtoms => "Query graph requires at least one atom"
  | foreignConstants names =>
    let vars := names.map fun v =>
      match v with
      | .var _ => v.description
      | _ => "Variable(name=" ++ v.description ++ ")"
    "Constants refer to unknown variables: " ++ Value.bracketed "[" vars "]"
  | notInAtom name atom =>
    "Variable " ++ name.display ++ " does not occur in atom " ++ atom.text
  | invalidCost name given =>
    name ++ " must be a finite non-negative number, not " ++ given.description
  | unknownCosts names => "Unknown cost constants: " ++ listText names
  | unknownSizes bound large =>
    "Cannot compute join costs for unknown sizes: B=" ++ bound.text ++ ", L=" ++ large.text
  | notANumber given => "could not convert string to float: " ++ given.description
  | notAnInteger base given =>
    s!"invalid literal for int() with base {base}: " ++ (Text.quoted given).take shownLength
  | notANumberText given =>
    "could not convert string to float: np.str_(" ++ Text.quoted given ++ ")"
  | unevenFactors =>
    "setting an array element with a sequence. The requested array has an inhomogeneous shape " ++
      "after 1 dimensions. The detected shape was (3,) + inhomogeneous part."
  | undefinedSample => "cannot convert float NaN to integer"
  | sampleOutOfRange => "high is out of bounds for int64"
  | tooManySamples =>
    "array is too big; `arr.size * arr.dtype.itemsize` is larger than the maximum possible size."
  | unknownPreset key => "Unknown presets for key '" ++ key ++ "'"
  | emptyCalibration => "Calibration requires at least one sample and one repetition"
  | negativeSeed => "expected non-negative integer"
  | unreadableSeed => "unrecognized seed string"
  | unknownStrategy given => "Unknown join strategy: " ++ given.display
  | nullNode => "None cannot be a node"
  | itemCount expected given =>
    if given < expected then
      s!"not enough values to unpack (expected {expected}, got {given})"
    else s!"too many values to unpack (expected {expected})"
  | attributeLength index given =>
    s!"dictionary update sequence element #{index} has length {given}; 2 is required"

end UsageFault

/-- A value of the wrong shape for what is done with it. -/
inductive Mismatch
  | incomparable
  | notAKey
  | notASequence
  | notAText
  | notANumber
  | notAnOffset
  | unknownOption
  | noDocumentForm
deriving DecidableEq, Inhabited

inductive Fault
  | schema (cause : SchemaFault)
  | usage (cause : UsageFault)
  | mismatch (cause : Mismatch)
  /-- The value of an unknown or infinite cardinality was asked for. -/
  | noKnownSize
  | outOfRange
  /-- Nothing is stored under a key; a key that is a text is named. -/
  | missingKey (text : Option String)
  /-- A number without a finite double-precision neighbour. -/
  | tooLarge
  /-- The operation does not exist for this kind of object. -/
  | unsupported
  | malformedDocument
  | foreignNode
  /-- Planning stopped making progress. -/
  | stalled
  /-- Planning chose an atom that has been resolved already. -/
  | resolvedTwice (atom : Nat)
deriving Inhabited

namespace Fault

/-- The message of the faults that have one. -/
def message? : Fault → Option String
  | schema f => some f.message
  | usage f => some f.message
  | noKnownSize =>
    some ("Not a valid cardinality. Use is_valid() to check, or get() to handle special values " ++
      "yourself.")
  | missingKey text => text
  | resolvedTwice atom => some s!"Atom {atom} was selected for resolution twice"
  | _ => none

end Fault

/-- A result or a fault. -/
abbrev Checked (α : Type) := Except Fault α

end JoinOrder
