import ObjectGraph.DataType
import ObjectGraph.Decimal
import ObjectGraph.Id

namespace ObjectGraph

inductive StoreError where
  | mapFull (required limit : Nat)
  | unknownTable (table : Nat)
  | tooManyTables (limit : Nat)
deriving DecidableEq

inductive Corruption where
  | valueTag (tag : UInt8)
  | payloadLength (type : DataType) (found expected : Nat)
  | associationValue
  | oddText
  | invalidText
  | keyLength (length : Nat)
  | untypedObject
  | malformedType (object : Id)
  | truncatedRecord (offset : Nat)
  | recordLink (offset target : Nat)
  | recordMagic
  | eventKind (kind : UInt8)
  | commitKey
  | objectCommitKey
  | indexKey
  | indexText
  | fieldWithoutOwner (field : Id)
  | fieldWithoutType (field : Id)
  | schemaValue (expected : DataType) (field object : Id) (found : DataType)
  | reported (text : String)
deriving DecidableEq

inductive Mismatch where
  | holdsNoValue
  | notAssociation
  | unpaired (field other : Id)
  | valueType (expected found : DataType)
  | undecodable (cause : Corruption)
  | textCriterion (type : DataType)
  | boundType (found expected : DataType)
  | associationDefinition
  | undefinedMirror (mirror : Id)
  | unreturnedMirror (mirror : Id)
deriving DecidableEq

inductive Misuse where
  | zeroPageSize
  | nilObject
  | reservedId (id : Id)
  | duplicateId (id : Id)
  | inheritanceCycle
  | unindexedField (field : Id)
  | undefinedField (field : Id)
  | cutoff (value : Decimal)
  | reported (text : String)
deriving DecidableEq

inductive Error where
  | store (cause : StoreError)
  | arenaExhausted (requested used capacity : Nat)
  | recordFormat (expected found : Nat)
  | corrupted (cause : Corruption)
  | objectExists (id : Id)
  | objectNotFound (id : Id)
  | unknownType (id : Id)
  | unknownField (type field : Id)
  | typeMismatch (field : Id) (cause : Mismatch)
  | readOnly
  | invalidArgument (cause : Misuse)
deriving DecidableEq

def StoreError.message : StoreError → String
  | mapFull required limit => s!"map full: {required} bytes required, limit is {limit}"
  | unknownTable table => s!"unknown table: table:{table}"
  | tooManyTables limit => s!"too many tables: limit is {limit}"

def Corruption.message : Corruption → String
  | valueTag tag => s!"unknown value tag {tag}"
  | payloadLength type found expected =>
    s!"{type.name} payload has {found} bytes, expected {expected}"
  | associationValue => "association tag in a field value"
  | oddText => "odd-length UTF-16 payload"
  | invalidText => "invalid UTF-16 payload"
  | keyLength length => s!"key of {length} bytes"
  | untypedObject => "object record without a type id"
  | malformedType object => s!"object {object} has a malformed type id"
  | truncatedRecord offset => s!"history record truncated at offset {offset}"
  | recordLink offset target => s!"history link at {offset} points to {target}"
  | recordMagic => "bad history record magic"
  | eventKind kind => s!"unknown history event kind {kind}"
  | commitKey => "malformed commit id key"
  | objectCommitKey => "malformed object commit key"
  | indexKey => "malformed search key"
  | indexText => "search entry is not UTF-8"
  | fieldWithoutOwner field => s!"field {field} has no owner"
  | fieldWithoutType field => s!"field {field} has no data type"
  | schemaValue expected field object found =>
    s!"expected {expected.name} in {field} of {object}, found {found.name}"
  | reported text => text

def Mismatch.message : Mismatch → String
  | holdsNoValue => "association fields hold no value"
  | notAssociation => "not an association field"
  | unpaired field other => s!"field {field} does not pair with {other}"
  | valueType expected found => s!"expected {expected.name}, got {found.name}"
  | undecodable cause => s!"corrupted record: {cause.message}"
  | textCriterion type => s!"text criterion on a {type.name} field"
  | boundType found expected => s!"{found.name} bound on a {expected.name} field"
  | associationDefinition =>
    "association fields need an association definition and nothing else may have one"
  | undefinedMirror mirror => s!"mirror field {mirror} is undefined"
  | unreturnedMirror mirror => s!"field {mirror} does not mirror back"

def Misuse.message : Misuse → String
  | zeroPageSize => "arena page size must be non-zero"
  | nilObject => "nil object id"
  | reservedId id => s!"reserved schema id {id}"
  | duplicateId id => s!"duplicate schema id {id}"
  | inheritanceCycle => "inheritance cycle"
  | unindexedField field => s!"field {field} is not indexed"
  | undefinedField field => s!"unknown field {field}"
  | cutoff value => s!"fuzzy cutoff {value.text} outside 0..=1"
  | reported text => text

namespace Error

def message : Error → String
  | store cause => s!"storage error: {cause.message}"
  | arenaExhausted requested used capacity =>
    s!"arena exhausted: {requested} bytes requested, {used} of {capacity} in use"
  | recordFormat expected found =>
    s!"history format mismatch: expected version {expected}, found {found}"
  | corrupted cause => s!"corrupted record: {cause.message}"
  | objectExists id => s!"object already exists: {id}"
  | objectNotFound id => s!"object not found: {id}"
  | unknownType id => s!"unknown type: {id}"
  | unknownField type field => s!"field {field} is not defined on type {type}"
  | typeMismatch field cause => s!"type mismatch on field {field}: {cause.message}"
  | readOnly => "session is read-only"
  | invalidArgument cause => s!"invalid argument: {cause.message}"

def IsFatal : Error → Prop
  | store (.unknownTable _) => False
  | store _ | arenaExhausted .. | recordFormat .. | corrupted _ => True
  | _ => False

instance : DecidablePred IsFatal := fun e => by
  unfold IsFatal
  split <;> infer_instance

end Error

end ObjectGraph
