import Mathlib.Data.String.Basic
import Mathlib.Order.Compare
import DimosViewer.OrdMap
import DimosViewer.Path.Text
import DimosViewer.Reach

/-!
# Names of entries

A name is validated when it is made. The name of a blueprint dataset is made from the
id of the dataset that it belongs to.
-/

namespace DimosViewer.Server

/-- As a `u128`. -/
abbrev Tuid := Fin (2 ^ 128)

abbrev EntryId := Tuid

def lowerHexDigit (d : Nat) : Char := Char.ofNat (if d < 10 then 48 + d else 87 + d)

/-- `{:016X}` or `{:016x}`, by the digits of the case. -/
def hex16 (digit : Nat → Char) (n : Nat) : List Char :=
  (Nat.digitsAppend 16 16 n).reverse.map digit

/-- `{:016X}{:016x}` of the nanoseconds and the increment. -/
def Tuid.display (id : Tuid) : List Char :=
  hex16 upperHexDigit (id / 2 ^ 64) ++ hex16 lowerHexDigit (id % 2 ^ 64)

-- ---------------------------------------------------------------------------
-- Names
-- ---------------------------------------------------------------------------

def MAX_ENTRY_NAME_LENGTH : Nat := 180

def isEntryNameChar (c : Char) : Bool :=
  c.isAlphanum || c == '_' || c == '-' || c == '.' || c == ' ' || c == '[' || c == ']' || c == ':'

structure EntryName where
  chars : List Char
  short : byteLen chars ≤ MAX_ENTRY_NAME_LENGTH
  valid : chars.all isEntryNameChar
deriving DecidableEq

namespace EntryName

theorem chars_injective : Function.Injective chars := by
  rintro ⟨a, _, _⟩ ⟨b, _, _⟩ h
  cases h
  rfl

instance : LinearOrder EntryName := LinearOrder.lift' chars chars_injective

instance : Std.LawfulEqOrd EntryName := ⟨compare_eq_iff_eq.mp⟩

/-- Or the text of the `InvalidEntryNameError`. -/
def new (name : String) : Except String EntryName :=
  let chars := name.toList
  if h : MAX_ENTRY_NAME_LENGTH < byteLen chars then
    .error s!"name '{name}' exceeds maximum length of {MAX_ENTRY_NAME_LENGTH} characters (got {byteLen chars})"
  else
    match hc : chars.find? (!isEntryNameChar ·) with
    | some ch => .error s!"name '{name}' contains invalid character '{ch}'"
    | none =>
      .ok {
        chars
        short := by omega
        valid := by
          rw [List.find?_eq_none] at hc
          exact List.all_eq_true.mpr fun c hm => by simpa using hc c hm }

def entriesTable : EntryName := ⟨"__entries".toList, by decide, by decide⟩

theorem isEntryNameChar_upperHexDigit (d : Nat) (h : d < 16) :
    isEntryNameChar (upperHexDigit d) ∧ (upperHexDigit d).utf8Size = 1 := by
  revert d
  decide

theorem isEntryNameChar_lowerHexDigit (d : Nat) (h : d < 16) :
    isEntryNameChar (lowerHexDigit d) ∧ (lowerHexDigit d).utf8Size = 1 := by
  revert d
  decide

/-- The characters may all stand in a name, and `n` of them take `n` bytes. -/
def Plain (chars : List Char) (n : Nat) : Prop :=
  chars.all isEntryNameChar ∧ byteLen chars = n

theorem Plain.append (ha : Plain a m) (hb : Plain b n) : Plain (a ++ b) (m + n) := by
  refine ⟨by simp [ha.1, hb.1], ?_⟩
  rw [byteLen, List.map_append, List.sum_append]
  exact congrArg₂ (· + ·) ha.2 hb.2

theorem plain_map {digit : Nat → Char}
    (hd : ∀ d < 16, isEntryNameChar (digit d) ∧ (digit d).utf8Size = 1) (digits : List Nat)
    (h : ∀ d ∈ digits, d < 16) : Plain (digits.map digit) digits.length := by
  induction digits with
  | nil => exact ⟨rfl, rfl⟩
  | cons d rest ih =>
    obtain ⟨hall, hlen⟩ := ih fun d' hd' => h d' (List.mem_cons_of_mem _ hd')
    obtain ⟨hchar, hsize⟩ := hd d (h d List.mem_cons_self)
    refine ⟨by simp [hchar, hall], ?_⟩
    rw [byteLen] at hlen ⊢
    rw [List.map_cons, List.map_cons, List.sum_cons, hsize, hlen, List.length_cons, Nat.add_comm]

theorem plain_hex16 {digit : Nat → Char}
    (hd : ∀ d < 16, isEntryNameChar (digit d) ∧ (digit d).utf8Size = 1) (n : Nat)
    (h : n < 2 ^ 64) : Plain (hex16 digit n) 16 := by
  have hlen : (Nat.digitsAppend 16 16 n).length = 16 :=
    Nat.length_digitsAppend (by decide) 16 (by simpa using h)
  have hlt : ∀ d ∈ (Nat.digitsAppend 16 16 n).reverse, d < 16 := fun d hm =>
    Nat.lt_of_mem_digitsAppend (by decide) 16 d (List.mem_reverse.mp hm)
  have := plain_map hd _ hlt
  rwa [List.length_reverse, hlen] at this

theorem plain_display (id : Tuid) : Plain id.display 32 :=
  (plain_hex16 isEntryNameChar_upperHexDigit _ (by omega)).append
    (plain_hex16 isEntryNameChar_lowerHexDigit _ (by omega))

/-- The conversion of the source never panics. -/
def blueprintFor (datasetId : EntryId) : EntryName :=
  have h : Plain ("__bp_".toList ++ datasetId.display) 37 :=
    Plain.append (m := 5) ⟨by decide, by decide⟩ (plain_display datasetId)
  { chars := "__bp_".toList ++ datasetId.display
    short := h.2 ▸ by decide
    valid := h.1 }

example :
    (blueprintFor 0x182342300C5F8C327A7B4A6E5A379AC4).chars =
      "__bp_182342300C5F8C327a7b4a6e5a379ac4".toList := by
  decide +kernel

end EntryName

end DimosViewer.Server

/-!
## The catalog of the server

The entries of a server, and the names under which they are found. The times of
creation and update and the contents of datasets and Lance tables are left out.
-/

namespace DimosViewer.Server

open Std (TreeMap)
open Reach (Reachable)

-- ---------------------------------------------------------------------------
-- Entries
-- ---------------------------------------------------------------------------

inductive StoreKind where
  | recording
  | blueprint
deriving DecidableEq

inductive EntryKind where
  | dataset
  | table
  | blueprintDataset
deriving DecidableEq

structure EntryDetails where
  id : EntryId
  name : EntryName
  kind : EntryKind
deriving DecidableEq

structure DatasetDetails where
  blueprintDataset : Option EntryId := none
  defaultBlueprintSegment : Option String := none
deriving DecidableEq

structure Dataset where
  id : EntryId
  name : EntryName
  storeKind : StoreKind
  details : DatasetDetails
deriving DecidableEq

namespace Dataset

def setName (d : Dataset) (name : EntryName) : Dataset := { d with name }

def entryKind (d : Dataset) : EntryKind :=
  match d.storeKind with
  | .recording => .dataset
  | .blueprint => .blueprintDataset

def asEntryDetails (d : Dataset) : EntryDetails := ⟨d.id, d.name, d.entryKind⟩

end Dataset

inductive TableType where
  | dataFusionTable (entries : List EntryDetails)
  | lanceDataset
deriving DecidableEq

inductive ProviderDetails where
  | systemTable
  | lanceTable (tableUrl : String)
deriving DecidableEq

structure Table where
  id : EntryId
  name : EntryName
  table : TableType
  providerDetails : ProviderDetails
deriving DecidableEq

namespace Table

def setName (t : Table) (name : EntryName) : Table := { t with name }

def asEntryDetails (t : Table) : EntryDetails := ⟨t.id, t.name, .table⟩

end Table

inductive IfDuplicateBehavior where
  | overwrite
  | skip
  | error
deriving DecidableEq

/-- `storage` stands for what the file system and Lance report. -/
inductive Error where
  | invalidEntryName (err : String)
  | duplicateEntryNameError (name : EntryName)
  | duplicateEntryIdError (id : EntryId)
  | entryIdNotFound (id : EntryId)
  | storage (err : String)
deriving DecidableEq

/-- What `EntryId::new` returns in one call: the id of the entry that is made, that of
its blueprint dataset, and that of the table of entries, if there is none. -/
structure NewIds where
  entry : EntryId
  blueprint : EntryId
  entriesTable : EntryId
deriving DecidableEq

-- ---------------------------------------------------------------------------
-- The store
-- ---------------------------------------------------------------------------

structure InMemoryStore where
  datasets : TreeMap EntryId Dataset := {}
  tables : TreeMap EntryId Table := {}
  idByName : TreeMap EntryName EntryId := {}

namespace InMemoryStore

/-- The rows of the system table: the datasets, the tables, and the system table itself,
under the id zero. -/
def entriesTable (s : InMemoryStore) : List EntryDetails :=
  s.datasets.values.map Dataset.asEntryDetails ++ s.tables.values.map Table.asEntryDetails ++
    [⟨0, .entriesTable, .table⟩]

/-- Never fails: the columns of `generate_entries_table` are of one length. -/
def updateEntriesTable (s : InMemoryStore) (new : EntryId) : InMemoryStore :=
  let entriesTableId := s.idByName.getD .entriesTable new
  let s := { s with
    idByName := s.idByName.insert .entriesTable entriesTableId
    tables := s.tables.erase entriesTableId }
  { s with
    tables := s.tables.insert entriesTableId
      { id := entriesTableId
        name := .entriesTable
        table := .dataFusionTable s.entriesTable
        providerDetails := .systemTable } }

/-- `Default::default`. -/
def empty (new : EntryId) : InMemoryStore := updateEntriesTable {} new

def idExists (s : InMemoryStore) (id : EntryId) : Bool := id ∈ s.tables || id ∈ s.datasets

def tableByName (s : InMemoryStore) (name : EntryName) : Option Table :=
  s.idByName[name]?.bind (s.tables[·]?)

def entryDetails (s : InMemoryStore) (id : EntryId) : Except Error EntryDetails :=
  match s.datasets[id]? with
  | some dataset => .ok dataset.asEntryDetails
  | none =>
    match s.tables[id]? with
    | some table => .ok table.asEntryDetails
    | none => .error (.entryIdNotFound id)

def renameEntry (s : InMemoryStore) (id : EntryId) (name : EntryName) (new : NewIds) :
    Except Error Unit × InMemoryStore :=
  match s.idByName[name]? with
  | some existing => (if existing = id then .ok () else .error (.duplicateEntryNameError name), s)
  | none =>
    match s.datasets[id]? with
    | some dataset =>
      (.ok (), { s with
        datasets := s.datasets.insert id (dataset.setName name)
        idByName := s.idByName.insert name id }.updateEntriesTable new.entriesTable)
    | none =>
      match s.tables[id]? with
      | some table =>
        (.ok (), { s with
          tables := s.tables.insert id (table.setName name)
          idByName := s.idByName.insert name id }.updateEntriesTable new.entriesTable)
      | none => (.error (.entryIdNotFound id), s)

def createDatasetImpl (s : InMemoryStore) (name : EntryName) (id : EntryId) (storeKind : StoreKind)
    (details : Option DatasetDetails) (new : NewIds) : Except Error EntryId × InMemoryStore :=
  if name ∈ s.idByName then (.error (.duplicateEntryNameError name), s)
  else if s.idExists id then (.error (.duplicateEntryIdError id), s)
  else
    (.ok id, { s with
      datasets := s.datasets.insert id ⟨id, name, storeKind, details.getD {}⟩
      idByName := s.idByName.insert name id }.updateEntriesTable new.entriesTable)

def createDataset (s : InMemoryStore) (name : EntryName) (id : Option EntryId) (new : NewIds) :
    Except Error EntryId × InMemoryStore :=
  let id := id.getD new.entry
  match s.createDatasetImpl (.blueprintFor id) new.blueprint .blueprint none new with
  | (.error err, s) => (.error err, s)
  | (.ok _, s) =>
    s.createDatasetImpl name id .recording (some { blueprintDataset := some new.blueprint }) new

def addTableEntry (s : InMemoryStore) (name : EntryName) (id : EntryId) (tableUrl : String)
    (new : NewIds) : InMemoryStore :=
  { s with
    idByName := s.idByName.insert name id
    tables := s.tables.insert id ⟨id, name, .lanceDataset, .lanceTable tableUrl⟩
    }.updateEntriesTable new.entriesTable

/-- `directory` is the name of the directory that the path leads to, `lance` is the URL of
the table that opens there. -/
def loadDirectoryAsTable (s : InMemoryStore) (name : Option String)
    (directory lance : Except Error String) (onDuplicate : IfDuplicateBehavior) (new : NewIds) :
    Except Error EntryId × InMemoryStore :=
  match directory with
  | .error err => (.error err, s)
  | .ok fileName =>
    match EntryName.new (name.getD fileName) with
    | .error err => (.error (.invalidEntryName err), s)
    | .ok name =>
      match lance with
      | .error err => (.error err, s)
      | .ok tableUrl =>
        match s.tableByName name with
        | none => (.ok new.entry, s.addTableEntry name new.entry tableUrl new)
        | some _ =>
          match onDuplicate with
          | .overwrite => (.ok new.entry, s.addTableEntry name new.entry tableUrl new)
          | .skip => (.ok new.entry, s)
          | .error => (.error (.duplicateEntryNameError name), s)

/-- `lance` is the URL of the table that is made. -/
def createTableEntry (s : InMemoryStore) (name : EntryName) (lance : Except Error String)
    (new : NewIds) : Except Error EntryId × InMemoryStore :=
  if name ∈ s.idByName then (.error (.duplicateEntryNameError name), s)
  else
    match lance with
    | .error err => (.error err, s)
    | .ok tableUrl => (.ok new.entry, s.addTableEntry name new.entry tableUrl new)

@[simp] theorem updateEntriesTable_datasets (s : InMemoryStore) (new : EntryId) :
    (s.updateEntriesTable new).datasets = s.datasets :=
  rfl

/-- The dataset, then its blueprint dataset. -/
def deleteEntry (s : InMemoryStore) (id : EntryId) (new : NewIds) :
    Except Error Unit × InMemoryStore :=
  match s.tables[id]? with
  | some table =>
    (.ok (), { s with
      tables := s.tables.erase id
      idByName := s.idByName.erase table.name }.updateEntriesTable new.entriesTable)
  | none =>
    match _h : s.datasets[id]? with
    | some dataset =>
      let s' := { s with
        datasets := s.datasets.erase id
        idByName := s.idByName.erase dataset.name }.updateEntriesTable new.entriesTable
      match dataset.details.blueprintDataset with
      | some blueprint => s'.deleteEntry blueprint new
      | none => (.ok (), s')
    | none => (.error (.entryIdNotFound id), s)
termination_by s.datasets.size
decreasing_by
  have hm : id ∈ s.datasets := TreeMap.mem_iff_isSome_getElem?.mpr (by rw [_h]; rfl)
  have hpos : s.datasets.size ≠ 0 := by
    intro h0
    have := TreeMap.isEmpty_eq_size_eq_zero (t := s.datasets)
    rw [h0] at this
    exact TreeMap.not_mem_of_isEmpty this hm
  rw [updateEntriesTable_datasets, TreeMap.size_erase, if_pos (TreeMap.mem_iff_contains.mp hm)]
  omega

inductive Call where
  | createDataset (name : EntryName) (id : Option EntryId)
  | createTableEntry (name : EntryName) (lance : Except Error String)
  | loadDirectoryAsTable (name : Option String) (directory lance : Except Error String)
    (onDuplicate : IfDuplicateBehavior)
  | renameEntry (id : EntryId) (name : EntryName)
  | deleteEntry (id : EntryId)

/-- The store after a call, whether it fails or not. -/
def call (s : InMemoryStore) : Call × NewIds → InMemoryStore
  | (.createDataset name id, new) => (s.createDataset name id new).2
  | (.createTableEntry name lance, new) => (s.createTableEntry name lance new).2
  | (.loadDirectoryAsTable name directory lance onDuplicate, new) =>
    (s.loadDirectoryAsTable name directory lance onDuplicate new).2
  | (.renameEntry id name, new) => (s.renameEntry id name new).2
  | (.deleteEntry id, new) => (s.deleteEntry id new).2

end InMemoryStore

end DimosViewer.Server
