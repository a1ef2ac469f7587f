import DimosViewer.Rrd.ManifestCheck

/-!
# When the check of a manifest aborts

Every error of the check is one its caller sees. What aborts it is the name of an archetype,
of the first column it comes to that has one it does not shorten.
-/

namespace DimosViewer.Rrd

open LittleEndian Metered Arrow

theorem ArchetypeName.within_shortName_iff (debugAssertions : Bool) (name : String) :
    Within limit (shortName debugAssertions name) ↔
      (debugAssertions = true → ¬ IsDoubled name) := by
  rw [shortName, within_bind_iff, sanityCheck]
  split
  case isTrue h => simp [h]
  case isFalse h =>
    rw [not_and] at h
    exact iff_of_true ⟨within_pure _, fun _ _ => within_pure _⟩ h

theorem ComponentDescriptor.within_archetypeFieldName_iff (debugAssertions : Bool)
    (descr : ComponentDescriptor) :
    Within limit (descr.archetypeFieldName debugAssertions) ↔
      (debugAssertions = true → ∀ archetype, descr.archetype = some archetype →
        ¬ ArchetypeName.IsDoubled archetype) := by
  rw [archetypeFieldName]
  split
  case h_1 hnone => simp [hnone]
  case h_2 archetype hsome =>
    simp [hsome, within_bind_iff, ArchetypeName.within_shortName_iff]

namespace Application.RawRrdManifest

/-- A build with debug assertions shortens the name of the column's archetype. -/
def NameFits (debugAssertions : Bool) (column : Field) : Prop :=
  debugAssertions = true → ∀ archetype, column.get "rerun:archetype" = some archetype →
    ¬ ArchetypeName.IsDoubled archetype

theorem within_computeColumnName_iff (debugAssertions : Bool) (descr : ComponentDescriptor)
    (start suffix : Option String) :
    Within limit (computeColumnName debugAssertions (some descr) start suffix) ↔
      (debugAssertions = true → ∀ archetype, descr.archetype = some archetype →
        ¬ ArchetypeName.IsDoubled archetype) := by
  simp only [computeColumnName]
  split
  case h_1 hnone => simp [hnone, within_bind_iff, ComponentDescriptor.within_archetypeFieldName_iff]
  case h_2 archetype hsome =>
    simp only [within_bind_iff, ArchetypeName.within_shortName_iff,
      ComponentDescriptor.within_archetypeFieldName_iff, within_pure, implies_true, and_true,
      hsome, Option.some.injEq, forall_eq']
    exact ⟨And.left, fun h => ⟨h, fun _ _ => h⟩⟩

theorem within_componentDescr_bind_iff (debugAssertions : Bool) (column : Field)
    {f : ComponentDescriptor → Reading α}
    (hf : ∀ descr, Within limit (f descr) ↔
      (debugAssertions = true → ∀ archetype, descr.archetype = some archetype →
        ¬ ArchetypeName.IsDoubled archetype)) :
    Within limit (Metered.ofExcept (componentDescr column) >>= f) ↔
      ((column.get "rerun:component").isSome → NameFits debugAssertions column) := by
  rw [within_ofExcept_bind_iff, componentDescr]
  split
  case h_1 hnone => simp [hnone]
  case h_2 component hsome =>
    simp only [Except.ok.injEq, forall_eq', hf, hsome, Option.isSome_some, forall_true_left]
    rfl

variable {StoreId : Type} (manifest : RawRrdManifest StoreId) (texts : Arrow.Texts)
  (debugAssertions : Bool)

theorem within_checkStaticColumn_iff (column : Field) :
    Within limit (manifest.checkStaticColumn debugAssertions column) ↔
      ((column.get "rerun:component").isSome → NameFits debugAssertions column) := by
  refine within_componentDescr_bind_iff debugAssertions column fun descr => ?_
  rw [within_bind_iff, within_computeColumnName_iff]
  refine and_iff_left fun name _ => ?_
  split
  · exact within_fail _
  · exact within_pure _

theorem within_checkGlobalIndexes (sorbetIndex : Field) (fields : List Field) :
    Within limit (checkGlobalIndexes texts debugAssertions sorbetIndex fields) := by
  refine (within_foldlM_iff _ _ _).mpr fun _ suffix _ fields' _ _ => ?_
  refine (within_bind_iff _ _).mpr ⟨within_pure _, fun normalized _ => ?_⟩
  split
  · exact within_fail _
  split
  · exact within_fail _
  · exact within_pure _

theorem within_checkLocalIndex_iff (sorbetIndex sorbetColumn : Field)
    (descr : ComponentDescriptor) (fields : List Field) (suffix : String) :
    Within limit
        (checkLocalIndex texts debugAssertions sorbetIndex sorbetColumn descr fields suffix) ↔
      (debugAssertions = true → ∀ archetype, descr.archetype = some archetype →
        ¬ ArchetypeName.IsDoubled archetype) := by
  rw [checkLocalIndex, within_bind_iff, within_computeColumnName_iff]
  refine and_iff_left fun name _ => ?_
  simp only
  split
  · exact within_pure _
  split
  · exact within_pure _
  split
  · exact within_fail _
  · exact within_pure _

/-- The first of the two names decides. -/
theorem within_checkLocalColumn_iff (sorbetIndex : Field) (fields : List Field)
    (sorbetColumn : Field) :
    Within limit (checkLocalColumn texts debugAssertions sorbetIndex fields sorbetColumn) ↔
      ((sorbetColumn.get "rerun:component").isSome → NameFits debugAssertions sorbetColumn) := by
  refine within_componentDescr_bind_iff debugAssertions sorbetColumn fun descr => ?_
  simp only [within_foldlM_iff, within_checkLocalIndex_iff]
  exact ⟨fun h => h [] "start" ["end"] fields rfl rfl, fun h _ _ _ _ _ _ => h⟩

-- ---------------------------------------------------------------------------
-- The columns a check comes to
-- ---------------------------------------------------------------------------

inductive Reaches (column : Field) : Prop where
  /-- There are static chunks, and the columns before have their marks. -/
  | ofStatic (isStatic : Column) (before after : List Field)
      (hisStatic : manifest.colChunkIsStatic = .ok isStatic)
      (hany : some true ∈ isStatic.booleans)
      (hcolumns : manifest.sorbetColumns = before ++ column :: after)
      (hbefore : (before.forM (manifest.checkStaticColumn debugAssertions)).outcome = .ok ())
  /-- An index, the ones before it and the columns before are as they should be. -/
  | ofIndex (isStatic : Column) (indexesBefore : List Field) (sorbetIndex : Field)
      (indexesAfter before after fields globals locals : List Field)
      (hisStatic : manifest.colChunkIsStatic = .ok isStatic)
      (hstatic : (manifest.checkStaticColumns debugAssertions isStatic).outcome = .ok ())
      (hindexes : manifest.sorbetIndexes = indexesBefore ++ sorbetIndex :: indexesAfter)
      (hfields : (indexesBefore.foldlM (manifest.checkSorbetIndex texts debugAssertions)
        manifest.rrdManifestFields).outcome = .ok fields)
      (hglobals : (checkGlobalIndexes texts debugAssertions sorbetIndex fields).outcome =
        .ok globals)
      (hcolumns : manifest.sorbetColumns = before ++ column :: after)
      (hlocals : (before.foldlM (checkLocalColumn texts debugAssertions sorbetIndex)
        globals).outcome = .ok locals)

/-- Once the columns of the manifest itself are correct, the archetypes that are looked at have
names that a build with debug assertions shortens. -/
def NamesFit : Prop :=
  manifest.checkGlobalColumnsAreCorrect = .ok () →
    manifest.checkIndexColumnsAreCorrect texts = .ok () →
      ∀ column, manifest.Reaches texts debugAssertions column →
        (column.get "rerun:component").isSome → NameFits debugAssertions column

theorem within_checkManifestSchema_iff :
    Within limit (manifest.checkManifestSchemaMatchesSorbetSchema texts debugAssertions) ↔
      ∀ column, manifest.Reaches texts debugAssertions column →
        (column.get "rerun:component").isSome → NameFits debugAssertions column := by
  rw [checkManifestSchemaMatchesSorbetSchema, within_ofExcept_bind_iff]
  constructor
  case mp =>
    intro h column hreaches
    cases hreaches with
    | ofStatic isStatic before after hisStatic hany hcolumns hbefore =>
      have hstatic := ((within_bind_iff _ _).mp (h isStatic hisStatic)).1
      rw [checkStaticColumns, if_pos hany, within_forM_iff] at hstatic
      exact (within_checkStaticColumn_iff ..).mp (hstatic before column after hcolumns hbefore)
    | ofIndex isStatic indexesBefore sorbetIndex indexesAfter before after fields globals locals
        hisStatic hstatic hindexes hfields hglobals hcolumns hlocals =>
      have hloop := ((within_bind_iff _ _).mp
        (((within_bind_iff _ _).mp (h isStatic hisStatic)).2 () hstatic)).1
      have hindex := (within_foldlM_iff _ _ _).mp hloop _ _ _ _ hindexes hfields
      have hlocal := (within_foldlM_iff _ _ _).mp
        (((within_bind_iff _ _).mp hindex).2 globals hglobals)
      exact (within_checkLocalColumn_iff ..).mp (hlocal _ _ _ _ hcolumns hlocals)
  case mpr =>
    intro h isStatic hisStatic
    refine (within_bind_iff _ _).mpr ⟨?_, fun _ hstatic => (within_bind_iff _ _).mpr ⟨?_, ?_⟩⟩
    · rw [checkStaticColumns]
      split
      case isTrue hany =>
        refine (within_forM_iff _ _).mpr fun before column after hcolumns hbefore => ?_
        exact (within_checkStaticColumn_iff ..).mpr
          (h column (.ofStatic isStatic before after hisStatic hany hcolumns hbefore))
      case isFalse => exact within_pure _
    · refine (within_foldlM_iff _ _ _).mpr
        fun indexesBefore sorbetIndex indexesAfter fields hindexes hfields => ?_
      refine (within_bind_iff _ _).mpr
        ⟨within_checkGlobalIndexes _ _ _ _, fun globals hglobals => ?_⟩
      refine (within_foldlM_iff _ _ _).mpr fun before column after locals hcolumns hlocals => ?_
      exact (within_checkLocalColumn_iff ..).mpr (h column (.ofIndex isStatic indexesBefore
        sorbetIndex indexesAfter before after fields globals locals hisStatic hstatic hindexes
        hfields hglobals hcolumns hlocals))
    · intro fields _
      split
      · exact within_pure _
      · exact within_fail _

theorem within_sanityCheckCheap_iff :
    Within limit (manifest.sanityCheckCheap texts debugAssertions) ↔
      manifest.NamesFit texts debugAssertions := by
  simp only [sanityCheckCheap, within_ofExcept_bind_iff, within_checkManifestSchema_iff, NamesFit]
  exact ⟨fun h hglobal hindex => h () hglobal () hindex,
    fun h _ hglobal _ hindex => h hglobal hindex⟩

end Application.RawRrdManifest

end DimosViewer.Rrd
