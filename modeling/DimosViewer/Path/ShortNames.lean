import Mathlib.Data.List.AList
import DimosViewer.Chunk.Basic

/-!
# Short names of entities

`EntityPath::short_names_with_disambiguation`: each entity is named by its last parts, and by one
more whenever that name is or was another one's. An entity that has a name already is moved to a
longer one without a look at who bears it.
-/

namespace DimosViewer

structure ShortenedEntity where
  entity : EntityPath
  numPart : Nat
deriving DecidableEq

namespace ShortenedEntity

def lastParts (self : ShortenedEntity) : List String :=
  (self.entity.reverse.take self.numPart).reverse

/-- The parts are not escaped. -/
def uiString (self : ShortenedEntity) : String :=
  if self.entity.isEmpty then "/"
  else String.ofList (['/'].intercalate (self.lastParts.map String.toList))

def longer (self : ShortenedEntity) : ShortenedEntity :=
  { self with numPart := self.numPart + 1 }

end ShortenedEntity

abbrev StrToEntities := AList fun _ : String => ShortenedEntity

namespace EntityPath

section Names

variable {s : ShortenedEntity} {p : String} {e : EntityPath}

theorem intercalate_length_lt (part : List Char) (parts : List (List Char)) (h : parts ≠ []) :
    (['/'].intercalate parts).length < (['/'].intercalate (part :: parts)).length := by
  obtain ⟨next, parts, rfl⟩ := List.exists_cons_of_ne_nil h
  rw [List.intercalate_cons_cons]
  simp only [List.length_append, List.length_singleton]
  omega

theorem lastParts_longer_of_le (h : s.entity.length ≤ s.numPart) :
    s.longer.lastParts = s.lastParts := by
  have hlen : s.entity.reverse.length ≤ s.numPart := by rwa [List.length_reverse]
  simp only [ShortenedEntity.lastParts, ShortenedEntity.longer]
  rw [List.take_of_length_le hlen, List.take_of_length_le (hlen.trans (Nat.le_succ _))]

theorem lastParts_longer_of_lt (h : s.numPart < s.entity.length) :
    ∃ part, s.longer.lastParts = part :: s.lastParts := by
  have hlt : s.numPart < s.entity.reverse.length := by rwa [List.length_reverse]
  refine ⟨s.entity.reverse[s.numPart], ?_⟩
  simp only [ShortenedEntity.lastParts, ShortenedEntity.longer]
  rw [List.take_succ_eq_append_getElem hlt, List.reverse_append]
  rfl

theorem lastParts_ne_nil (h : 0 < s.numPart) (hne : s.entity ≠ []) : s.lastParts ≠ [] := by
  obtain ⟨part, parts, hparts⟩ := List.exists_cons_of_ne_nil (mt List.reverse_eq_nil_iff.mp hne)
  obtain ⟨n, hn⟩ := Nat.exists_eq_succ_of_ne_zero h.ne'
  simp [ShortenedEntity.lastParts, hparts, hn]

theorem uiString_longer_of_le (h : s.entity.length ≤ s.numPart) :
    s.longer.uiString = s.uiString := by
  simp only [ShortenedEntity.uiString, lastParts_longer_of_le h]
  rfl

theorem uiString_longer (h : 0 < s.numPart) :
    s.longer.uiString = s.uiString ↔ s.entity.length ≤ s.numPart := by
  refine ⟨fun he => ?_, uiString_longer_of_le⟩
  by_contra hlt
  rw [not_le] at hlt
  have hne : s.entity ≠ [] := List.ne_nil_of_length_pos (Nat.zero_lt_of_lt hlt)
  obtain ⟨part, hpart⟩ := lastParts_longer_of_lt hlt
  have hlen := intercalate_length_lt part.toList (s.lastParts.map String.toList)
    (by simpa using lastParts_ne_nil h hne)
  have hne' : s.longer.entity ≠ [] := hne
  simp only [ShortenedEntity.uiString, List.isEmpty_eq_false_iff.mpr hne,
    List.isEmpty_eq_false_iff.mpr hne', Bool.false_eq_true, if_false, String.ofList_inj, hpart,
    List.map_cons] at he
  rw [he] at hlen
  exact absurd hlen (Nat.lt_irrefl _)

end Names

def lengthenExisting (strToEntities : StrToEntities) (newLabel : String) : StrToEntities :=
  match strToEntities.lookup newLabel with
  | none => strToEntities
  | some existingShortened =>
    (strToEntities.erase newLabel).insert existingShortened.longer.uiString
      existingShortened.longer

/-- The loop for one entity: a name that nobody bears or has borne, or the longest one. -/
def disambiguate (strToEntities : StrToEntities) (knownBadLabels : List String)
    (shortened : ShortenedEntity) : StrToEntities × List String × ShortenedEntity :=
  let newLabel := shortened.uiString
  if newLabel ∈ strToEntities ∨ newLabel ∈ knownBadLabels then
    let knownBadLabels := newLabel :: knownBadLabels
    let strToEntities := lengthenExisting strToEntities newLabel
    if shortened.longer.uiString = newLabel then (strToEntities, knownBadLabels, shortened.longer)
    else disambiguate strToEntities knownBadLabels shortened.longer
  else (strToEntities, knownBadLabels, shortened)
termination_by shortened.entity.length - shortened.numPart
decreasing_by
  rename_i hne
  have := mt uiString_longer_of_le hne
  simp only [ShortenedEntity.longer]
  omega

def addShortened (state : StrToEntities × List String) (entity : EntityPath) :
    StrToEntities × List String :=
  let done := disambiguate state.1 state.2 ⟨entity, 1⟩
  (done.1.insert done.2.2.uiString done.2.2, done.2.1)

def shortNamesWithDisambiguation (entities : List EntityPath) : List (EntityPath × String) :=
  (entities.foldl addShortened (∅, [])).1.entries.map fun entry => (entry.2.entity, entry.1)

-- ---------------------------------------------------------------------------
-- Names that are overwritten
-- ---------------------------------------------------------------------------

def LengthensFreely (strToEntities : StrToEntities) (newLabel : String) : Prop :=
  ∀ existing, strToEntities.lookup newLabel = some existing →
    existing.longer.uiString ∉ strToEntities.erase newLabel

def DisambiguatesFreely (strToEntities : StrToEntities) (knownBadLabels : List String)
    (shortened : ShortenedEntity) : Prop :=
  let newLabel := shortened.uiString
  newLabel ∈ strToEntities ∨ newLabel ∈ knownBadLabels →
    LengthensFreely strToEntities newLabel ∧
      (shortened.longer.uiString ≠ newLabel →
        DisambiguatesFreely (lengthenExisting strToEntities newLabel)
          (newLabel :: knownBadLabels) shortened.longer)
termination_by shortened.entity.length - shortened.numPart
decreasing_by
  rename_i hne
  have := mt uiString_longer_of_le hne
  simp only [ShortenedEntity.longer]
  omega

def AddsFreely (state : StrToEntities × List String) (entity : EntityPath) : Prop :=
  DisambiguatesFreely state.1 state.2 ⟨entity, 1⟩ ∧
    (disambiguate state.1 state.2 ⟨entity, 1⟩).2.2.uiString ∉
      (disambiguate state.1 state.2 ⟨entity, 1⟩).1

def NothingOverwritten : StrToEntities × List String → List EntityPath → Prop
  | _, [] => True
  | state, entity :: entities =>
    AddsFreely state entity ∧ NothingOverwritten (addShortened state entity) entities

end EntityPath

end DimosViewer
