import DimosViewer.Metered
import DimosViewer.Rrd.Manifest

/-!
# The cheap check of a manifest

The columns of a manifest are compared by name and type with the Sorbet schema that comes with
it. The name of a column is put together from the short name of an archetype, which a build
with debug assertions does not shorten if it looks like the result of a bad round trip: the
check then aborts the program.
-/

namespace DimosViewer.Rrd

open LittleEndian

inductive Fault where
  | panic (panic : Panic)
  | addOverflow
  | debugAssertion
deriving DecidableEq, Repr

abbrev Reading := Metered Fault CodecError

def rsplitOnce (separator : Char) (text : String) : Option (String × String) :=
  let after := text.toList.reverse.takeWhile (· ≠ separator)
  match text.toList.reverse.drop after.length with
  | [] => none
  | _ :: before => some (.ofList before.reverse, .ofList after.reverse)

def stripPrefix (start text : String) : Option String :=
  if start.toList.isPrefixOf text.toList then
    some (.ofList (text.toList.drop start.toList.length))
  else none

-- ---------------------------------------------------------------------------
-- Arrow's schemas, as far as a check reads them
-- ---------------------------------------------------------------------------

namespace Arrow

inductive TimeUnit where
  | second
  | millisecond
  | microsecond
  | nanosecond
deriving DecidableEq, Repr

inductive DataType where
  | boolean
  | int64
  | uint64
  | utf8
  | binary
  | fixedSizeBinary (size : Int)
  | timestamp (unit : TimeUnit) (timezone : Option String)
  | duration (unit : TimeUnit)
  | other (name : String)
deriving DecidableEq, Repr

structure Field where
  name : String
  dataType : DataType
  nullable : Bool
  /-- In the order of the keys. -/
  metadata : List (String × String)
deriving DecidableEq, Repr

def Field.get (field : Field) (key : String) : Option String := field.metadata.lookup key

abbrev Schema : Type := List Field

structure Column where
  field : Field
  /-- What a column of Booleans holds, the only values that are looked at. -/
  booleans : List (Option Bool)
deriving DecidableEq, Repr

abbrev RecordBatch : Type := List Column

namespace RecordBatch

def columnByName (batch : RecordBatch) (name : String) : Option Column :=
  batch.find? (·.field.name = name)

def schema (batch : RecordBatch) : Schema := batch.map (·.field)

end RecordBatch

def Schema.fieldWithName (schema : Schema) (name : String) : Option Field :=
  schema.find? (·.name = name)

/-- How errors show types, fields and sets of names. -/
structure Texts where
  dataType : DataType → String
  field : Field → String
  names : List String → String

end Arrow

open Arrow

-- ---------------------------------------------------------------------------
-- Names of columns
-- ---------------------------------------------------------------------------

namespace ArchetypeName

/-- A name that looks like the result of a bad round trip. -/
def IsDoubled (name : String) : Prop :=
  "rerun.archetypes.rerun.archetypes.".toList <+: name.toList

instance (name : String) : Decidable (IsDoubled name) := inferInstanceAs (Decidable (_ <+: _))

def sanityCheck (debugAssertions : Bool) (name : String) : Reading Unit :=
  if debugAssertions = true ∧ IsDoubled name then Metered.abort .debugAssertion else pure ()

def shortName (debugAssertions : Bool) (name : String) : Reading String := do
  sanityCheck debugAssertions name
  return ((stripPrefix "rerun.archetypes." name).or
    ((stripPrefix "rerun.blueprint.archetypes." name).or (stripPrefix "rerun." name))).getD name

end ArchetypeName

def ComponentDescriptor.archetypeFieldName (debugAssertions : Bool)
    (descr : ComponentDescriptor) : Reading String :=
  match descr.archetype with
  | none => return descr.component
  | some archetype => do
    let short ← ArchetypeName.shortName debugAssertions archetype
    return (stripPrefix (short ++ ":") descr.component).getD descr.component

/-- The parts of a name that are there, with the characters replaced that do not go everywhere. -/
def joinColumnName (parts : List (Option String)) : String :=
  let fullName := ":".intercalate ((parts.filterMap id).filter (· ≠ ""))
  let sanitized := fullName.toList.map fun c =>
    if c ∈ [',', ' ', '-', '.', '\\'] then '_' else c
  .ofList (sanitized.dropWhile (· = '_'))

namespace Application

structure RawRrdManifest (StoreId : Type) where
  storeId : StoreId
  sorbetSchema : Schema
  sorbetSchemaSha256 : Bytes
  data : RecordBatch
deriving DecidableEq, Repr

namespace RawRrdManifest

/-- Nobody gives an entity path here. -/
def computeColumnName (debugAssertions : Bool) (componentDesc : Option ComponentDescriptor)
    (start suffix : Option String) : Reading String :=
  match componentDesc with
  | none => return joinColumnName [start, suffix]
  | some descr =>
    match descr.archetype with
    | none => do
      let fieldName ← descr.archetypeFieldName debugAssertions
      return joinColumnName [start, some fieldName, suffix]
    | some archetype => do
      let short ← ArchetypeName.shortName debugAssertions archetype
      let fieldName ← descr.archetypeFieldName debugAssertions
      return joinColumnName [start, some short, some fieldName, suffix]

def malformed (reason : String) : CodecError := .payload s!"Detected malformed Chunk: {reason}"

-- ---------------------------------------------------------------------------
-- Global columns
-- ---------------------------------------------------------------------------

def FIELD_CHUNK_ID : String := "chunk_id"
def FIELD_CHUNK_IS_STATIC : String := "chunk_is_static"
def FIELD_CHUNK_NUM_ROWS : String := "chunk_num_rows"
def FIELD_CHUNK_ENTITY_PATH : String := "chunk_entity_path"
def FIELD_CHUNK_BYTE_OFFSET : String := "chunk_byte_offset"
def FIELD_CHUNK_BYTE_SIZE : String := "chunk_byte_size"
def FIELD_CHUNK_BYTE_SIZE_UNCOMPRESSED : String := "chunk_byte_size_uncompressed"
def FIELD_CHUNK_KEY : String := "chunk_key"

def GLOBAL_FIELDS : List String :=
  [FIELD_CHUNK_ID, FIELD_CHUNK_IS_STATIC, FIELD_CHUNK_NUM_ROWS, FIELD_CHUNK_BYTE_SIZE,
    FIELD_CHUNK_BYTE_SIZE_UNCOMPRESSED, FIELD_CHUNK_BYTE_OFFSET, FIELD_CHUNK_KEY,
    FIELD_CHUNK_ENTITY_PATH]

def COMMON_IMPL_SPECIFIC_FIELDS : List String :=
  ["chunk_partition_id", "chunk_partition_layer", "rerun_partition_id", "rerun_partition_layer",
    "chunk_segment_id", "chunk_segment_layer", "rerun_segment_id", "rerun_segment_layer"]

variable {StoreId : Type} (manifest : RawRrdManifest StoreId)

def column (name array : String) (isArray : Arrow.DataType → Bool) : Except CodecError Column :=
  match manifest.data.columnByName name with
  | none => .error (.payload s!"cannot read column: '{name}' is missing from batch")
  | some column =>
    if isArray column.field.dataType then .ok column
    else .error (.payload s!"cannot downcast column: '{name}' is not a {array}")

def colChunkId : Except CodecError Column :=
  manifest.column FIELD_CHUNK_ID "FixedSizeBinaryArray" fun
    | .fixedSizeBinary _ => true
    | _ => false

def colChunkIsStatic : Except CodecError Column :=
  manifest.column FIELD_CHUNK_IS_STATIC "BooleanArray" (· = .boolean)

def uint64Column (name : String) : Except CodecError Column :=
  manifest.column name "UInt64Array" (· = .uint64)

def colChunkNumRows : Except CodecError Column := manifest.uint64Column FIELD_CHUNK_NUM_ROWS

def colChunkEntityPath : Except CodecError Column :=
  manifest.column FIELD_CHUNK_ENTITY_PATH "StringArray" (· = .utf8)

def colChunkByteOffset : Except CodecError Column :=
  manifest.uint64Column FIELD_CHUNK_BYTE_OFFSET

def colChunkByteSize : Except CodecError Column := manifest.uint64Column FIELD_CHUNK_BYTE_SIZE

def colChunkByteSizeUncompressed : Except CodecError Column :=
  manifest.uint64Column FIELD_CHUNK_BYTE_SIZE_UNCOMPRESSED

def colChunkKeyRaw : Except CodecError Column :=
  manifest.column FIELD_CHUNK_KEY "BinaryArray" (· = .binary)

def checkGlobalColumnsAreCorrect : Except CodecError Unit := do
  let _ ← manifest.colChunkId
  let _ ← manifest.colChunkIsStatic
  let _ ← manifest.colChunkNumRows
  let _ ← manifest.colChunkEntityPath
  let _ ← manifest.colChunkByteSizeUncompressed
  let _ ← manifest.colChunkByteOffset
  let _ ← manifest.colChunkByteSize
  if (manifest.data.schema.fieldWithName FIELD_CHUNK_KEY).isSome then
    let _ ← manifest.colChunkKeyRaw

-- ---------------------------------------------------------------------------
-- Index columns
-- ---------------------------------------------------------------------------

variable (texts : Arrow.Texts)

def checkDataType (field : Field) (expected : Arrow.DataType) : Except CodecError Unit :=
  if field.dataType ≠ expected then
    .error (malformed (s!"field '{field.name}' should be {texts.dataType expected} " ++
      s!"but is actually {texts.dataType field.dataType}"))
  else .ok ()

/-- All columns have one of four suffixes, or are global. -/
def checkSuffix (field : Field) : Except CodecError Unit :=
  match rsplitOnce ':' field.name with
  | some (_, "start") => .ok ()
  | some (_, "end") => .ok ()
  | some (_, "has_static_data") => checkDataType texts field .boolean
  | some (_, "num_rows") => checkDataType texts field .uint64
  | some (_, suffix) =>
    .error (malformed s!"field '{field.name}' has invalid suffix '{suffix}'")
  | none =>
    if field.name ∈ GLOBAL_FIELDS ∨ field.name ∈ COMMON_IMPL_SPECIFIC_FIELDS then .ok ()
    else .error (malformed
      s!"unexpected field '{field.name}' should not be present in an RRD manifest")

def isSupportedIndex : Arrow.DataType → Bool
  | .int64 => true
  | .timestamp _ _ => true
  | .duration _ => true
  | _ => false

/-- The starts have ends of the same type, and the other way around. -/
def checkCounterpart (field : Field) : Except CodecError Unit :=
  let check start counterpart : Except CodecError Unit :=
    match manifest.data.schema.fieldWithName s!"{start}:{counterpart}" with
    | none => .error (malformed
        s!"field '{field.name}' does not have matching `:{counterpart}` field")
    | some fieldCounterpart =>
      if !isSupportedIndex field.dataType then
        .error (malformed (s!"field '{field.name}' is {texts.dataType field.dataType} " ++
          "which is not a supported index datatype"))
      else if field.dataType ≠ fieldCounterpart.dataType then
        .error (malformed (s!"field '{field.name}' is {texts.dataType field.dataType} but field " ++
          s!"'{fieldCounterpart.name}' is {texts.dataType fieldCounterpart.dataType}"))
      else .ok ()
  match rsplitOnce ':' field.name with
  | some (start, "start") => check start "end"
  | some (start, "end") => check start "start"
  | _ => .ok ()

/-- Looks up the field it comes from, by its own name. -/
def checkNumRows (field : Field) : Except CodecError Unit :=
  match rsplitOnce ':' field.name with
  | some (start, "num_rows") =>
    match manifest.data.schema.fieldWithName s!"{start}:num_rows" with
    | none => .error (malformed s!"field '{field.name}' does not have matching `:num_rows` field")
    | some fieldNumRows =>
      if fieldNumRows.dataType = .uint64 then .ok ()
      else .error (malformed
        (s!"field '{fieldNumRows.name}' is {texts.dataType fieldNumRows.dataType} " ++
          "while it should be UInt64Array"))
  | _ => .ok ()

def checkIndexColumnsAreCorrect : Except CodecError Unit := do
  manifest.data.schema.forM (checkSuffix texts)
  manifest.data.schema.forM (manifest.checkCounterpart texts)
  manifest.data.schema.forM (manifest.checkNumRows texts)

-- ---------------------------------------------------------------------------
-- The Sorbet schema
-- ---------------------------------------------------------------------------

variable (debugAssertions : Bool)

def sorbetIndexes : List Field :=
  (manifest.sorbetSchema.filter fun field =>
    field.get "rerun:kind" = some "index" ∧ (field.get "rerun:index_name").isSome).eraseDups

def sorbetColumns : List Field :=
  (manifest.sorbetSchema.filter fun field => field.get "rerun:kind" = some "data").eraseDups

def componentDescr (column : Field) : Except CodecError ComponentDescriptor :=
  match column.get "rerun:component" with
  | none => .error (malformed s!"column '{column.name}' is missing rerun:component metadata")
  | some component =>
    .ok ⟨column.get "rerun:archetype", component, column.get "rerun:component_type"⟩

def checkStaticColumn (column : Field) : Reading Unit := do
  let descr ← Metered.ofExcept (componentDescr column)
  let columnName ← computeColumnName debugAssertions (some descr) none (some "has_static_data")
  match manifest.data.schema.fieldWithName columnName with
  | none => Metered.fail (malformed s!"static index '{columnName}' is missing")
  | some _ => return ()

/-- If there are any static chunks, then all components are marked as static or not. -/
def checkStaticColumns (isStatic : Column) : Reading Unit :=
  if some true ∈ isStatic.booleans then
    manifest.sorbetColumns.forM (manifest.checkStaticColumn debugAssertions)
  else return ()

/-- Of several fields of one name only the last one counts. -/
def removeField (fields : List Field) (name : String) : Option Field × List Field :=
  (fields.findRev? (·.name = name), fields.filter (·.name ≠ name))

def rrdManifestFields : List Field :=
  manifest.data.schema.filter fun field =>
    field.name.toList.reverse.take 6 = ":start".toList.reverse ∨
      field.name.toList.reverse.take 4 = ":end".toList.reverse

def checkGlobalIndex (sorbetIndex : Field) (fields : List Field) (suffix : String) :
    Reading (List Field) := do
  -- The names of the Sorbet schema are not normalized yet.
  let normalized ← computeColumnName debugAssertions none none (some sorbetIndex.name)
  match removeField fields s!"{normalized}:{suffix}" with
  | (none, _) => Metered.fail (malformed
      s!"global index '{texts.field sorbetIndex}' does not have matching `:{suffix}` field")
  | (some field, fields) =>
    if sorbetIndex.dataType ≠ field.dataType then
      Metered.fail (malformed
        (s!"global index '{sorbetIndex.name}' is {texts.dataType sorbetIndex.dataType} but " ++
          s!"'{field.name}' is {texts.dataType field.dataType}"))
    else return fields

def checkLocalIndex (sorbetIndex sorbetColumn : Field) (descr : ComponentDescriptor)
    (fields : List Field) (suffix : String) : Reading (List Field) := do
  let columnName ←
    computeColumnName debugAssertions (some descr) (some sorbetIndex.name) (some suffix)
  match removeField fields columnName with
  | (field, fields) =>
    -- A column that is declared static may still have traces of temporal data.
    if sorbetColumn.get "rerun:is_static" = some "true" then return fields
    else match field with
      | none => return fields
      | some field =>
        if sorbetIndex.dataType ≠ field.dataType then
          Metered.fail (malformed
            (s!"local index '{sorbetIndex.name}' is {texts.dataType sorbetIndex.dataType} but " ++
              s!"'{field.name}' is {texts.dataType field.dataType}"))
        else return fields

def checkLocalColumn (sorbetIndex : Field) (fields : List Field) (sorbetColumn : Field) :
    Reading (List Field) := do
  let descr ← Metered.ofExcept (componentDescr sorbetColumn)
  ["start", "end"].foldlM (checkLocalIndex texts debugAssertions sorbetIndex sorbetColumn descr)
    fields

def checkGlobalIndexes (sorbetIndex : Field) (fields : List Field) : Reading (List Field) :=
  ["start", "end"].foldlM (checkGlobalIndex texts debugAssertions sorbetIndex) fields

def checkSorbetIndex (fields : List Field) (sorbetIndex : Field) : Reading (List Field) := do
  let fields ← checkGlobalIndexes texts debugAssertions sorbetIndex fields
  manifest.sorbetColumns.foldlM (checkLocalColumn texts debugAssertions sorbetIndex) fields

def checkManifestSchemaMatchesSorbetSchema : Reading Unit := do
  let isStatic ← Metered.ofExcept manifest.colChunkIsStatic
  manifest.checkStaticColumns debugAssertions isStatic
  let fields ← manifest.sorbetIndexes.foldlM (manifest.checkSorbetIndex texts debugAssertions)
    manifest.rrdManifestFields
  if fields = [] then return ()
  else Metered.fail (malformed
    ("detected dangling indexes (present in manifest but not in Sorbet schema): " ++
      texts.names (fields.map (·.name))))

def sanityCheckCheap : Reading Unit := do
  Metered.ofExcept manifest.checkGlobalColumnsAreCorrect
  Metered.ofExcept (manifest.checkIndexColumnsAreCorrect texts)
  manifest.checkManifestSchemaMatchesSorbetSchema texts debugAssertions

end RawRrdManifest

end Application

end DimosViewer.Rrd
