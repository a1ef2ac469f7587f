import Mathlib.Algebra.BigOperators.Group.List.Basic
import Mathlib.Order.Compare
import DimosViewer.Store.RunLaws
import DimosViewer.Store.Findable

/-!
# The bookkeeping of physical chunks is exact

The order by smallest row id and the statistics follow the physical chunks, and
no subtraction underflows, as long as every timeline of an entity keeps its type
and announcements tell static from temporal chunks.
-/

namespace DimosViewer

open Std (TreeMap)

-- ---------------------------------------------------------------------------
-- Statistics
-- ---------------------------------------------------------------------------

namespace ChunkStoreChunkStats

instance : Zero ChunkStoreChunkStats := ⟨{}⟩

@[ext] theorem ext {a b : ChunkStoreChunkStats} (h1 : a.numChunks = b.numChunks)
    (h2 : a.totalSizeBytes = b.totalSizeBytes) (h3 : a.numRows = b.numRows)
    (h4 : a.numEvents = b.numEvents) : a = b := by
  cases a; cases b; simp_all

instance : AddCommMonoid ChunkStoreChunkStats where
  add_assoc a b c := ChunkStoreChunkStats.ext (Nat.add_assoc ..) (Nat.add_assoc ..)
    (Nat.add_assoc ..) (Nat.add_assoc ..)
  zero_add a := ChunkStoreChunkStats.ext (Nat.zero_add _) (Nat.zero_add _) (Nat.zero_add _)
    (Nat.zero_add _)
  add_zero a := rfl
  add_comm a b := ChunkStoreChunkStats.ext (Nat.add_comm ..) (Nat.add_comm ..) (Nat.add_comm ..)
    (Nat.add_comm ..)
  nsmul := nsmulRec

theorem add_sub_cancel_left (a b : ChunkStoreChunkStats) : a + b - a = b :=
  ChunkStoreChunkStats.ext (Nat.add_sub_cancel_left ..) (Nat.add_sub_cancel_left ..)
    (Nat.add_sub_cancel_left ..) (Nat.add_sub_cancel_left ..)

theorem le_add_right (a b : ChunkStoreChunkStats) : a ≤ a + b :=
  ⟨Nat.le_add_right .., Nat.le_add_right .., Nat.le_add_right .., Nat.le_add_right ..⟩

end ChunkStoreChunkStats

def sumStats (env : Env) (isStatic : Bool) (m : TreeMap ChunkId Chunk) : ChunkStoreChunkStats :=
  ((m.values.filter (·.isStatic = isStatic)).map (ChunkStoreChunkStats.fromChunk env)).sum

def statsOf (env : Env) (isStatic : Bool) (c : Chunk) : ChunkStoreChunkStats :=
  if c.isStatic = isStatic then .fromChunk env c else 0

theorem sumStats_of_perm {m m' : TreeMap ChunkId Chunk} {key : ChunkId} {c : Chunk}
    (h : m.toList.Perm ((key, c) :: m'.toList)) (env : Env) (isStatic : Bool) :
    sumStats env isStatic m = statsOf env isStatic c + sumStats env isStatic m' := by
  have hv := h.map Prod.snd
  rw [List.map_cons, ← OrdMap.values_eq_map_toList, ← OrdMap.values_eq_map_toList] at hv
  rw [sumStats, ((hv.filter _).map _).sum_eq, statsOf, List.filter_cons]
  by_cases hst : c.isStatic = isStatic
  · simp [hst, sumStats]
  · simp [hst, sumStats]

theorem sumStats_insert {m : TreeMap ChunkId Chunk} {key : ChunkId} (h : m[key]? = none)
    (c : Chunk) (env : Env) (isStatic : Bool) : sumStats env isStatic (m.insert key c) =
      statsOf env isStatic c + sumStats env isStatic m :=
  sumStats_of_perm (OrdMap.toList_insert_perm h c) env isStatic

theorem sumStats_erase {m : TreeMap ChunkId Chunk} {key : ChunkId} (h : m[key]? = some c)
    (env : Env) (isStatic : Bool) : sumStats env isStatic m =
      statsOf env isStatic c + sumStats env isStatic (m.erase key) :=
  sumStats_of_perm (OrdMap.toList_erase_perm h) env isStatic

namespace ChunkStore

variable {env : Env} {pol : Policy} {config : ChunkStoreConfig}
variable {pending : Bool → ChunkStoreChunkStats}

instance : Std.LawfulEqOrd (RowId ×ₗ ChunkId) := ⟨compare_eq_iff_eq.mp⟩

-- ---------------------------------------------------------------------------
-- The invariant
-- ---------------------------------------------------------------------------

/-- The statistics are sums, `pending` is what was counted ahead of its chunk. -/
structure StatsExact (env : Env) (pending : Bool → ChunkStoreChunkStats) (s : ChunkStore) :
    Prop where
  temporal : s.temporalPhysicalChunksStats =
    pending false + sumStats env false s.physicalChunksPerChunkId
  static : s.staticChunksStats = pending true + sumStats env true s.physicalChunksPerChunkId
  noUnderflow : s.statsUnderflow = false

/-- The order by smallest row id holds every physical chunk once. -/
def RowsExact (s : ChunkStore) : Prop :=
  ∀ (rowId : RowId) (cid : ChunkId), toLex (rowId, cid) ∈ s.physicalChunkIdsPerMinRowId ↔
    ∃ c, s.physicalChunksPerChunkId[cid]? = some c ∧ c.rowIdMin = some rowId

theorem StatsExact.of_eq {s s' : ChunkStore} (h : StatsExact env pending s)
    (hp : s'.physicalChunksPerChunkId = s.physicalChunksPerChunkId)
    (ht : s'.temporalPhysicalChunksStats = s.temporalPhysicalChunksStats)
    (hs : s'.staticChunksStats = s.staticChunksStats)
    (hu : s'.statsUnderflow = s.statsUnderflow) : StatsExact env pending s' :=
  ⟨by rw [ht, hp, h.temporal], by rw [hs, hp, h.static], by rw [hu, h.noUnderflow]⟩

theorem RowsExact.of_eq {s s' : ChunkStore} (h : s.RowsExact)
    (hp : s'.physicalChunksPerChunkId = s.physicalChunksPerChunkId)
    (hr : s'.physicalChunkIdsPerMinRowId = s.physicalChunkIdsPerMinRowId) : s'.RowsExact := by
  intro rowId cid
  rw [hr, hp]
  exact h rowId cid

theorem StatsExact.count {s s' : ChunkStore} (h : StatsExact env (fun _ => 0) s) (c : Chunk)
    (hp : s'.physicalChunksPerChunkId = s.physicalChunksPerChunkId)
    (ht : s'.temporalPhysicalChunksStats = s.temporalPhysicalChunksStats + statsOf env false c)
    (hs : s'.staticChunksStats = s.staticChunksStats + statsOf env true c)
    (hu : s'.statsUnderflow = s.statsUnderflow) : StatsExact env (statsOf env · c) s' where
  temporal := by rw [hp, ht, h.temporal, zero_add, add_comm]
  static := by rw [hp, hs, h.static, zero_add, add_comm]
  noUnderflow := hu.trans h.noUnderflow

theorem StatsExact.insertPhysical {s : ChunkStore} {c : Chunk}
    (h : StatsExact env (statsOf env · c) s) (hn : s.physicalChunksPerChunkId[c.id]? = none) :
    StatsExact env (fun _ => 0) (s.insertPhysical c) where
  temporal := by
    rw [zero_add]
    exact h.temporal.trans (sumStats_insert hn c env false).symm
  static := by
    rw [zero_add]
    exact h.static.trans (sumStats_insert hn c env true).symm
  noUnderflow := h.noUnderflow

theorem StatsExact.eraseTemporal {s s' : ChunkStore} (h : StatsExact env pending s) {key : ChunkId}
    {c : Chunk} (hc : s.physicalChunksPerChunkId[key]? = some c) (hst : c.isStatic = false)
    (hp : s'.physicalChunksPerChunkId = s.physicalChunksPerChunkId.erase key)
    (ht : s'.temporalPhysicalChunksStats = s.temporalPhysicalChunksStats - .fromChunk env c)
    (hs : s'.staticChunksStats = s.staticChunksStats)
    (hu : s'.statsUnderflow =
      (s.statsUnderflow || !decide (.fromChunk env c ≤ s.temporalPhysicalChunksStats))) :
    StatsExact env pending s' := by
  have hsum := sumStats_erase hc env false
  have hsum' := sumStats_erase hc env true
  rw [statsOf, if_pos hst] at hsum
  rw [statsOf, if_neg (by rw [hst]; decide), zero_add] at hsum'
  have htotal : s.temporalPhysicalChunksStats = .fromChunk env c +
      (pending false + sumStats env false (s.physicalChunksPerChunkId.erase key)) := by
    rw [h.temporal, hsum, add_left_comm]
  refine ⟨?_, ?_, ?_⟩
  · rw [ht, htotal, hp, ChunkStoreChunkStats.add_sub_cancel_left]
  · rw [hs, h.static, hsum', hp]
  · rw [hu, h.noUnderflow, htotal, decide_eq_true (ChunkStoreChunkStats.le_add_right _ _)]
    rfl

theorem StatsExact.eraseStatic {s s' : ChunkStore} (h : StatsExact env pending s) {key : ChunkId}
    {c : Chunk} (hc : s.physicalChunksPerChunkId[key]? = some c) (hst : c.isStatic = true)
    (hp : s'.physicalChunksPerChunkId = s.physicalChunksPerChunkId.erase key)
    (ht : s'.temporalPhysicalChunksStats = s.temporalPhysicalChunksStats)
    (hs : s'.staticChunksStats = s.staticChunksStats - .fromChunk env c)
    (hu : s'.statsUnderflow =
      (s.statsUnderflow || !decide (.fromChunk env c ≤ s.staticChunksStats))) :
    StatsExact env pending s' := by
  have hsum := sumStats_erase hc env false
  have hsum' := sumStats_erase hc env true
  rw [statsOf, if_neg (by rw [hst]; decide), zero_add] at hsum
  rw [statsOf, if_pos hst] at hsum'
  have htotal : s.staticChunksStats = .fromChunk env c +
      (pending true + sumStats env true (s.physicalChunksPerChunkId.erase key)) := by
    rw [h.static, hsum', add_left_comm]
  refine ⟨?_, ?_, ?_⟩
  · rw [ht, h.temporal, hsum, hp]
  · rw [hs, htotal, hp, ChunkStoreChunkStats.add_sub_cancel_left]
  · rw [hu, h.noUnderflow, htotal, decide_eq_true (ChunkStoreChunkStats.le_add_right _ _)]
    rfl

theorem RowsExact.insertPhysical {s : ChunkStore} (h : s.RowsExact) {c : Chunk}
    (hn : s.physicalChunksPerChunkId[c.id]? = none) : (s.insertPhysical c).RowsExact := by
  intro rowId cid
  rw [insertPhysical_physical, ChunkStore.insertPhysical]
  cases hr : c.rowIdMin with
  | none =>
    simp only [h rowId cid]
    by_cases hc : c.id = cid
    · subst hc
      simp [hn, hr]
    · simp [hc]
  | some rowIdMin =>
    simp only [OrdMap.mem_insert, h rowId cid]
    by_cases hc : c.id = cid
    · subst hc
      simp [hn, hr]
    · simp [hc]

theorem RowsExact.erase {s s' : ChunkStore} (h : s.RowsExact) {cid : ChunkId} {c : Chunk}
    (hc : s.physicalChunksPerChunkId[cid]? = some c)
    (hp : s'.physicalChunksPerChunkId = s.physicalChunksPerChunkId.erase cid)
    (hr : ∀ key, key ∈ s'.physicalChunkIdsPerMinRowId ↔
      key ∈ s.physicalChunkIdsPerMinRowId ∧
        c.rowIdMin.map (fun rowId => toLex (rowId, cid)) ≠ some key) : s'.RowsExact := by
  intro rowId cid'
  rw [hr, hp, h rowId cid', OrdMap.getElem?_erase]
  by_cases hid : cid = cid'
  · subst hid
    simp [hc]
  · simp [hid]

theorem RowsExact.erase_none {s s' : ChunkStore} (h : s.RowsExact) {cid : ChunkId}
    (hn : s.physicalChunksPerChunkId[cid]? = none)
    (hp : s'.physicalChunksPerChunkId = s.physicalChunksPerChunkId) (rowId : Option RowId)
    (hr : ∀ key, key ∈ s'.physicalChunkIdsPerMinRowId ↔
      key ∈ s.physicalChunkIdsPerMinRowId ∧
        rowId.map (fun rowId => toLex (rowId, cid)) ≠ some key) : s'.RowsExact := by
  intro rowId' cid'
  rw [hr, hp, h rowId' cid']
  by_cases hid : cid = cid'
  · subst hid
    simp [hn]
  · simp [hid]

structure Exact (env : Env) (pending : Bool → ChunkStoreChunkStats) (s : ChunkStore) : Prop where
  stats : StatsExact env pending s
  rows : s.RowsExact

theorem Exact.of_eq {s s' : ChunkStore} (h : Exact env pending s)
    (hp : s'.physicalChunksPerChunkId = s.physicalChunksPerChunkId)
    (hr : s'.physicalChunkIdsPerMinRowId = s.physicalChunkIdsPerMinRowId)
    (ht : s'.temporalPhysicalChunksStats = s.temporalPhysicalChunksStats)
    (hs : s'.staticChunksStats = s.staticChunksStats)
    (hu : s'.statsUnderflow = s.statsUnderflow) : Exact env pending s' :=
  ⟨h.stats.of_eq hp ht hs hu, h.rows.of_eq hp hr⟩

theorem Exact.of_samePhysical {s s' : ChunkStore} (h : Exact env pending s) (hs : SamePhysical s s') :
    Exact env pending s' := h.of_eq hs.physical hs.minRowIds hs.temporalStats hs.staticStats hs.statsUnderflow

-- ---------------------------------------------------------------------------
-- Removals
-- ---------------------------------------------------------------------------

theorem mem_erase_minRowId (s : ChunkStore) (rowId : RowId) (cid : ChunkId) (key : RowId ×ₗ ChunkId) :
    key ∈ s.physicalChunkIdsPerMinRowId.erase (toLex (rowId, cid)) ↔
      key ∈ s.physicalChunkIdsPerMinRowId ∧
        (some rowId).map (fun rowId => toLex (rowId, cid)) ≠ some key := by
  rw [OrdMap.mem_erase, and_comm]
  simp

/-- A chunk that is given to a removal is the physical one, or not there. -/
def Given (s : ChunkStore) (c : Chunk) : Prop :=
  s.physicalChunksPerChunkId[c.id]? = none ∨ s.physicalChunksPerChunkId[c.id]? = some c

/-- A given chunk that is physical is temporal. -/
def Removable (s : ChunkStore) (c : Chunk) : Prop :=
  s.physicalChunksPerChunkId[c.id]? = none ∨
    s.physicalChunksPerChunkId[c.id]? = some c ∧ c.isStatic = false

theorem Removable.given {s : ChunkStore} {c : Chunk} (h : s.Removable c) : s.Given c :=
  h.imp_right And.left

theorem Given.removeShallow {s : ChunkStore} {c : Chunk} (h : s.Given c) (env : Env)
    (reason : ChunkDeletionReason) (d : Chunk) : (s.removeShallow env reason d).1.Given c := by
  rw [Given, removeShallow_physical]
  split
  · exact .inl rfl
  · exact h

theorem Removable.removeShallow {s : ChunkStore} {c : Chunk} (h : s.Removable c) (env : Env)
    (reason : ChunkDeletionReason) (d : Chunk) : (s.removeShallow env reason d).1.Removable c := by
  rw [Removable, removeShallow_physical]
  split
  · exact .inl rfl
  · exact h

theorem RowsExact.removeShallow {s : ChunkStore} (h : s.RowsExact) {c : Chunk} (hc : s.Given c)
    (env : Env) (reason : ChunkDeletionReason) : (s.removeShallow env reason c).1.RowsExact := by
  unfold ChunkStore.removeShallow
  rcases hc with hn | hc
  · cases hr : c.rowIdMin with
    | none => simpa only [hn] using h
    | some rowId =>
      simp only [hn]
      exact h.erase_none hn rfl (some rowId) (mem_erase_minRowId s rowId c.id)
  · cases hr : c.rowIdMin with
    | none =>
      simp only [hc]
      exact h.erase hc rfl fun key => by rw [hr]; simp [subTemporalStats]
    | some rowId =>
      simp only [hc]
      exact h.erase hc rfl fun key => by rw [hr]; exact mem_erase_minRowId s rowId c.id key

theorem StatsExact.removeShallow {s : ChunkStore} (h : StatsExact env pending s) {c : Chunk}
    (hc : s.Removable c) (reason : ChunkDeletionReason) :
    StatsExact env pending (s.removeShallow env reason c).1 := by
  unfold ChunkStore.removeShallow
  rcases hc with hn | ⟨hc, hst⟩
  · cases c.rowIdMin with
    | none => simpa only [hn] using h
    | some rowId =>
      simp only [hn]
      exact h.of_eq rfl rfl rfl rfl
  · cases c.rowIdMin with
    | none =>
      simp only [hc]
      exact h.eraseTemporal hc hst rfl rfl rfl rfl
    | some rowId =>
      simp only [hc]
      exact h.eraseTemporal hc hst rfl rfl rfl rfl

theorem RowsExact.removeChunksShallow {s : ChunkStore} (h : s.RowsExact) {chunks : List Chunk}
    (hc : ∀ c ∈ chunks, s.Given c) (env : Env) (reason : ChunkDeletionReason)
    (exhausted : Nat → Bool) :
    (s.removeChunksShallow env reason exhausted chunks).1.RowsExact :=
  (removeChunksShallow_induction (fun s => s.RowsExact ∧ ∀ c ∈ chunks, s.Given c)
    (fun _ d hd ⟨hs, hr⟩ => ⟨hs.removeShallow (hr d hd) env reason,
      fun c hc => (hr c hc).removeShallow env reason d⟩) exhausted ⟨h, hc⟩).1

theorem RowsExact.removeChunksDeep {s : ChunkStore} (h : s.RowsExact) {chunks : List Chunk}
    (hc : ∀ c ∈ chunks, s.Given c) (env : Env) (reason : ChunkDeletionReason)
    (exhausted : Nat → Bool) : (s.removeChunksDeep env reason exhausted chunks).1.RowsExact :=
  have hsame := sweepIndices_samePhysical reason
    (s.removeChunksShallow env reason exhausted chunks).1 chunks
  (h.removeChunksShallow hc env reason exhausted).of_eq hsame.physical hsame.minRowIds

theorem StatsExact.removeChunksShallow {s : ChunkStore} (h : StatsExact env pending s)
    {chunks : List Chunk} (hc : ∀ c ∈ chunks, s.Removable c) (reason : ChunkDeletionReason)
    (exhausted : Nat → Bool) :
    StatsExact env pending (s.removeChunksShallow env reason exhausted chunks).1 :=
  (removeChunksShallow_induction
    (fun s => StatsExact env pending s ∧ ∀ c ∈ chunks, s.Removable c)
    (fun _ d hd ⟨hs, hr⟩ => ⟨hs.removeShallow (hr d hd) reason,
      fun c hc => (hr c hc).removeShallow env reason d⟩) exhausted ⟨h, hc⟩).1

theorem Exact.removeChunksShallow {s : ChunkStore} (h : Exact env pending s) {chunks : List Chunk}
    (hc : ∀ c ∈ chunks, s.Removable c) (reason : ChunkDeletionReason) (exhausted : Nat → Bool) :
    Exact env pending (s.removeChunksShallow env reason exhausted chunks).1 :=
  ⟨h.stats.removeChunksShallow hc reason exhausted,
    h.rows.removeChunksShallow (fun c hm => (hc c hm).given) env reason exhausted⟩

theorem Exact.removeChunksDeep {s : ChunkStore} (h : Exact env pending s) {chunks : List Chunk}
    (hc : ∀ c ∈ chunks, s.Removable c) (reason : ChunkDeletionReason) (exhausted : Nat → Bool) :
    Exact env pending (s.removeChunksDeep env reason exhausted chunks).1 :=
  (h.removeChunksShallow hc reason exhausted).of_samePhysical
    (sweepIndices_samePhysical reason _ chunks)

-- ---------------------------------------------------------------------------
-- Static chunks
-- ---------------------------------------------------------------------------

/-- Static and temporal chunks are kept apart: physical chunks and index entries
are of the kind of their id. -/
structure Kinded (kind : ChunkId → Bool) (s : ChunkStore) : Prop where
  physical : ∀ {cid : ChunkId} {c}, s.physicalChunksPerChunkId[cid]? = some c →
    c.isStatic = kind cid
  static : ∀ {e component cid}, s.staticChunkId? e component = some cid → kind cid = true
  temporal : ∀ {slot time cid}, cid ∈ (s.at slot).startIds time → kind cid = false

/-- The walk over the columns of a static chunk: static entries lead to chunks that are
`ok`, and the overwritten ones are noted with their smallest row id. -/
structure Walk (ok : Chunk → Prop) (s : ChunkStore) (acc : ChunkStore × TreeMap ChunkId RowId) :
    Prop where
  physical : acc.1.physicalChunksPerChunkId = s.physicalChunksPerChunkId
  static : ∀ {e component cid d}, acc.1.staticChunkId? e component = some cid →
    s.physicalChunksPerChunkId[cid]? = some d → ok d
  noted : ∀ {cid : ChunkId} {rowId}, acc.2[cid]? = some rowId →
    ∃ d, s.physicalChunksPerChunkId[cid]? = some d ∧ d.rowIdMin = some rowId ∧ ok d

variable {ok : Chunk → Prop}

theorem Walk.overwriteComponent {s : ChunkStore} {acc : ChunkStore × TreeMap ChunkId RowId}
    (h : Walk ok s acc) {c : Chunk} (hn : s.physicalChunksPerChunkId[c.id]? = none)
    (column : SerializedComponentColumn) : Walk ok s (overwriteComponent c acc column) where
  physical := by
    obtain ⟨ids, he⟩ := overwriteComponent_eq c acc column
    rw [he]
    exact h.physical
  static {e component cid d} hcid hd := by
    have hold : ∀ x, (if c.entityPath = e ∧ column.component = component then some c.id
        else acc.1.staticChunkId? e component) = some x →
        s.physicalChunksPerChunkId[x]? = some d → ok d := by
      intro x hx hd
      split at hx
      · cases hx
        rw [hn] at hd
        cases hd
      · exact h.static hx hd
    rcases overwriteComponent_staticChunkId? c acc column e component with ⟨he, -⟩ | ⟨he, -⟩
    · exact hold cid (he ▸ hcid) hd
    · exact h.static (he ▸ hcid) hd
  noted {cid rowId} hm := by
    unfold ChunkStore.overwriteComponent at hm
    dsimp only at hm
    split at hm
    · exact h.noted hm
    split at hm
    · exact h.noted hm
    split at hm
    · exact h.noted hm
    rename_i cur hcur
    split at hm
    · split at hm
      · exact h.noted hm
      · rename_i rowId' hr
        obtain ⟨d, hd, hrow⟩ := Option.bind_eq_some_iff.mp hr
        rw [OrdMap.getElem?_insert] at hm
        split at hm
        · rename_i hcid
          cases hm
          have hd : s.physicalChunksPerChunkId[cid]? = some d := by rw [← h.physical, ← hcid, hd]
          exact ⟨d, hd, hrow, h.static hcur (hcid ▸ hd)⟩
        · exact h.noted hm
    · exact h.noted hm

theorem Walk.overwriteComponents {s : ChunkStore} {acc : ChunkStore × TreeMap ChunkId RowId}
    (h : Walk ok s acc) {c : Chunk} (hn : s.physicalChunksPerChunkId[c.id]? = none)
    (columns : ChunkComponents) : Walk ok s (columns.foldl (ChunkStore.overwriteComponent c) acc) := by
  induction columns generalizing acc with
  | nil => exact h
  | cons column rest ih => exact ih (h.overwriteComponent hn column)

theorem RowsExact.removeIfDangling {s : ChunkStore} (h : s.RowsExact) (env : Env) (e : EntityPath)
    {cid : ChunkId} {rowId : RowId}
    (hc : ∀ d, s.physicalChunksPerChunkId[cid]? = some d → d.rowIdMin = some rowId) :
    (s.removeIfDangling env e cid rowId).1.RowsExact := by
  unfold ChunkStore.removeIfDangling
  split
  · exact h
  split
  · exact h
  dsimp only
  split
  · rename_i hn
    exact h.erase_none hn rfl (some rowId) (mem_erase_minRowId s rowId cid)
  · rename_i d hd
    exact h.erase hd rfl fun key => by rw [hc d hd]; exact mem_erase_minRowId s rowId cid key

theorem StatsExact.removeIfDangling {s : ChunkStore} (h : StatsExact env pending s)
    (e : EntityPath) {cid : ChunkId} (rowId : RowId)
    (hc : ∀ d, s.physicalChunksPerChunkId[cid]? = some d → d.isStatic = true) :
    StatsExact env pending (s.removeIfDangling env e cid rowId).1 := by
  unfold ChunkStore.removeIfDangling
  split
  · exact h
  split
  · exact h
  dsimp only
  split
  · exact h.of_eq rfl rfl rfl rfl
  · rename_i d hd
    exact h.eraseStatic hd (hc d hd) rfl rfl rfl rfl

/-- What the removal of one noted chunk keeps, the removal of all keeps. -/
theorem removeAllDangling_keeps {inv : ChunkStore → Prop} {good : Chunk → RowId → Prop}
    (hstep : ∀ s e cid rowId, inv s →
      (∀ d, s.physicalChunksPerChunkId[cid]? = some d → good d rowId) →
        inv (s.removeIfDangling env e cid rowId).1)
    {s : ChunkStore} (h : inv s) (e : EntityPath) {entries : List (ChunkId × RowId)}
    (hc : ∀ entry ∈ entries, ∀ d, s.physicalChunksPerChunkId[entry.1]? = some d →
      good d entry.2) : inv (s.removeAllDangling env e entries).1 := by
  induction entries generalizing s with
  | nil => exact h
  | cons entry rest ih =>
    have hp := (removeIfDangling_frame env e s entry.1 entry.2).2
    exact ih (hstep _ e _ _ h (hc entry List.mem_cons_self))
      fun entry' hm d hd => hc entry' (List.mem_cons_of_mem _ hm) d (hp.some hd)

theorem Walk.dangling {s : ChunkStore} {acc : ChunkStore × TreeMap ChunkId RowId}
    (h : Walk ok s acc) {cids : List ChunkId} :
    ∀ entry ∈ cids.filterMap fun cid => (acc.2[cid]?).map (cid, ·),
      ∀ d, acc.1.physicalChunksPerChunkId[entry.1]? = some d →
        d.rowIdMin = some entry.2 ∧ ok d := by
  intro entry hm d hd
  obtain ⟨cid, -, hcid⟩ := List.mem_filterMap.mp hm
  obtain ⟨rowId, hr, rfl⟩ := Option.map_eq_some_iff.mp hcid
  obtain ⟨d', hd', hrow, hok⟩ := h.noted hr
  rw [h.physical, hd'] at hd
  cases hd
  exact ⟨hrow, hok⟩

theorem RowsExact.storeStatic {s : ChunkStore} (h : s.RowsExact) (env : Env) {c : Chunk}
    (hn : s.physicalChunksPerChunkId[c.id]? = none) (lineage : ChunkDirectLineageReport) :
    (s.storeStatic env c lineage).1.RowsExact := by
  have hwalk := @Walk.overwriteComponents (fun _ => True) s (s, ∅)
    ⟨rfl, fun _ _ => trivial, fun hm => by simp at hm⟩ c hn c.components
  obtain ⟨ids, he⟩ := overwriteComponents_eq c c.components (s, ∅)
  unfold ChunkStore.storeStatic
  dsimp only
  generalize c.components.foldl (ChunkStore.overwriteComponent c) (s, ∅) = acc at hwalk he ⊢
  have hrows : RowsExact { acc.1 with
      staticChunksStats := acc.1.staticChunksStats + ChunkStoreChunkStats.fromChunk env c } :=
    h.of_eq (by rw [he]) (by rw [he])
  exact removeAllDangling_keeps
    (fun s e _ _ hs hd => RowsExact.removeIfDangling hs env e hd) hrows c.entityPath
    fun entry hm d hd => (hwalk.dangling entry hm d hd).1

theorem StatsExact.storeStatic {s : ChunkStore} (h : StatsExact env (fun _ => 0) s)
    (hk : ∀ {e component cid d}, s.staticChunkId? e component = some cid →
      s.physicalChunksPerChunkId[cid]? = some d → d.isStatic = true) {c : Chunk}
    (hn : s.physicalChunksPerChunkId[c.id]? = none) (hst : c.isStatic = true)
    (lineage : ChunkDirectLineageReport) :
    StatsExact env (statsOf env · c) (s.storeStatic env c lineage).1 := by
  have hwalk := @Walk.overwriteComponents (·.isStatic = true) s (s, ∅)
    ⟨rfl, hk, fun hm => by simp at hm⟩ c hn c.components
  obtain ⟨ids, he⟩ := overwriteComponents_eq c c.components (s, ∅)
  unfold ChunkStore.storeStatic
  dsimp only
  generalize c.components.foldl (ChunkStore.overwriteComponent c) (s, ∅) = acc at hwalk he ⊢
  have hcount : StatsExact env (statsOf env · c) { acc.1 with
      staticChunksStats := acc.1.staticChunksStats + ChunkStoreChunkStats.fromChunk env c } := by
    refine h.count c (by rw [he]) ?_ ?_ (by rw [he])
    · rw [he, statsOf, if_neg (by rw [hst]; decide), add_zero]
    · rw [he, statsOf, if_pos hst]
  exact removeAllDangling_keeps
    (fun s e _ rowId hs hd => StatsExact.removeIfDangling hs e rowId hd) hcount c.entityPath
    fun entry hm d hd => (hwalk.dangling entry hm d hd).2

/-- A static chunk is counted, and those it leaves without a component go. -/
theorem Exact.storeStatic {s : ChunkStore} (h : Exact env (fun _ => 0) s)
    (hk : ∀ {e component cid d}, s.staticChunkId? e component = some cid →
      s.physicalChunksPerChunkId[cid]? = some d → d.isStatic = true) {c : Chunk}
    (hn : s.physicalChunksPerChunkId[c.id]? = none) (hst : c.isStatic = true)
    (lineage : ChunkDirectLineageReport) :
    Exact env (statsOf env · c) (s.storeStatic env c lineage).1 :=
  ⟨h.stats.storeStatic hk hn hst lineage, h.rows.storeStatic env hn lineage⟩

-- ---------------------------------------------------------------------------
-- Insertions
-- ---------------------------------------------------------------------------

theorem Exact.insertPhysical {s : ChunkStore} {c : Chunk} (h : Exact env (statsOf env · c) s)
    (hn : s.physicalChunksPerChunkId[c.id]? = none) :
    Exact env (fun _ => 0) (s.insertPhysical c) :=
  ⟨h.stats.insertPhysical hn, h.rows.insertPhysical hn⟩

theorem Exact.insertIntoIndices {s : ChunkStore} (h : Exact env (fun _ => 0) s) {c : Chunk}
    (hst : c.isStatic = false) : Exact env (statsOf env · c) (s.insertIntoIndices env c) := by
  refine ⟨h.stats.count c rfl ?_ ?_ rfl, h.rows.of_eq rfl rfl⟩
  · rw [statsOf, if_pos hst]
    rfl
  · rw [statsOf, if_neg (by rw [hst]; decide), add_zero]
    rfl

/-- Every timeline name of an entity is used with one type. -/
def HasTypes (types : EntityPath → TimelineName → Timeline) (c : Chunk) : Prop :=
  ∀ entry ∈ c.columnTypes, entry.2 = types c.entityPath entry.1

/-- Two neighbors with the same types keep their timelines when they are merged. -/
theorem Compacts.isStatic_eq_false {s : ChunkStore} {n : Nat} {c elected compacted : Chunk}
    (h : Compacts env s n c elected compacted) {types : EntityPath → TimelineName → Timeline}
    (hc : HasTypes types c) (hel : HasTypes types elected) : compacted.isStatic = false := by
  refine Bool.eq_false_iff.mpr fun hst => ?_
  rcases h.isMerge.isStatic hst with ⟨-, hst⟩ | ⟨name, lhs, rhs, hl, hr, hne⟩
  · rw [h.temporal] at hst
    cases hst
  · have hl := hel _ hl
    have hr := hc _ hr
    rw [h.entityPath_eq] at hl
    exact hne (hl.trans hr.symm)

theorem Compacts.id_none {s : ChunkStore} {n : Nat} {c elected compacted : Chunk}
    (h : Compacts env s n c elected compacted) (hcore : Core env pol s) :
    s.physicalChunksPerChunkId[compacted.id]? = none :=
  Option.eq_none_iff_forall_not_mem.mpr fun _ hd =>
    hcore.mentions (.physical hd) (DrawnIn.future h.drawn)

theorem RowsExact.stored {s s' : ChunkStore} {c : Chunk} (h : s.RowsExact)
    (hcore : Core env pol s) (hn : s.physicalChunksPerChunkId[c.id]? = none)
    (hs : Stored env s c s' diffs) : s'.RowsExact := by
  cases hs with
  | @static lineage hst _ =>
    exact (h.storeStatic env hn lineage).insertPhysical ((storeStatic_frame env s c lineage).2.none hn)
  | asIs before hst _ =>
    have hrows : (s.insertIntoIndices env c).RowsExact := h.of_eq rfl rfl
    exact hrows.insertPhysical hn
  | @compacted n elected compacted hcomp =>
    have h0 : RowsExact ({ s with issued := n }.insertIntoIndices env compacted) := h.of_eq rfl rfl
    have h1 : RowsExact ({ s with issued := n }.replaceElected env elected compacted).1 := by
      refine h0.removeChunksDeep (fun d hd => .inr ?_) env _ _
      obtain rfl := List.mem_singleton.mp hd
      exact hcomp.physical
    rw [compactInto_eq]
    refine RowsExact.insertPhysical (h1.of_eq rfl rfl) ?_
    refine (replaceElected_physical env { s with issued := n } elected compacted _).trans ?_
    split
    · rfl
    · exact hcomp.id_none hcore

theorem Exact.stored {s s' : ChunkStore} {c : Chunk} {kind : ChunkId → Bool}
    {types : EntityPath → TimelineName → Timeline} (h : Exact env (fun _ => 0) s)
    (hk : Kinded kind s) (hcore : Core env pol s)
    (hn : s.physicalChunksPerChunkId[c.id]? = none) (hc : HasTypes types c)
    (hphys : ∀ {cid : ChunkId} {d}, s.physicalChunksPerChunkId[cid]? = some d → HasTypes types d)
    (hs : Stored env s c s' diffs) : Exact env (fun _ => 0) s' := by
  cases hs with
  | @static lineage hst _ =>
    refine (h.storeStatic (fun hi hd => (hk.physical hd).trans (hk.static hi)) hn hst
      lineage).insertPhysical ?_
    exact (storeStatic_frame env s c lineage).2.none hn
  | asIs before hst _ => exact (h.insertIntoIndices hst).insertPhysical hn
  | @compacted n elected compacted hcomp =>
    have hst := hcomp.isStatic_eq_false hc (hphys hcomp.physical)
    have h0 : Exact env (fun _ => 0) { s with issued := n } := h.of_eq rfl rfl rfl rfl rfl
    have h1 : Exact env (statsOf env · compacted)
        ({ s with issued := n }.replaceElected env elected compacted).1 := by
      refine (h0.insertIntoIndices hst).removeChunksDeep (fun d hd => .inr ?_) _ _
      obtain rfl := List.mem_singleton.mp hd
      exact ⟨hcomp.physical, hcomp.isStatic_eq.trans hcomp.temporal⟩
    rw [compactInto_eq]
    refine Exact.insertPhysical (h1.of_eq rfl rfl rfl rfl rfl) ?_
    refine (replaceElected_physical env { s with issued := n } elected compacted _).trans ?_
    split
    · rfl
    · exact hcomp.id_none hcore

-- ---------------------------------------------------------------------------
-- Entity drops
-- ---------------------------------------------------------------------------

theorem StatsExact.dropStatic {s : ChunkStore} (h : StatsExact env pending s) {ids : List ChunkId}
    (hk : ∀ cid ∈ ids, ∀ c, s.physicalChunksPerChunkId[cid]? = some c → c.isStatic = true) :
    StatsExact env pending
      (s.dropPhysical (fun s c => s.subStaticStats (.fromChunk env c)) ids).1 := by
  induction ids generalizing s with
  | nil => exact h
  | cons cid rest ih =>
    rw [dropPhysical]
    split
    · exact ih h fun cid' hm => hk cid' (List.mem_cons_of_mem _ hm)
    · rename_i c hc
      refine ih (h.eraseStatic hc (hk cid List.mem_cons_self c hc) rfl rfl rfl rfl)
        fun cid' hm d hd => ?_
      have hd := (OrdMap.getElem?_erase _ _ _).symm.trans hd
      split at hd
      · cases hd
      · exact hk cid' (List.mem_cons_of_mem _ hm) d hd

theorem StatsExact.dropTemporal {s : ChunkStore} (h : StatsExact env pending s)
    {ids : List ChunkId}
    (hk : ∀ cid ∈ ids, ∀ c, s.physicalChunksPerChunkId[cid]? = some c → c.isStatic = false) :
    StatsExact env pending
      (s.dropPhysical (fun s c => s.subTemporalStats (.fromChunk env c)) ids).1 := by
  induction ids generalizing s with
  | nil => exact h
  | cons cid rest ih =>
    rw [dropPhysical]
    split
    · exact ih h fun cid' hm => hk cid' (List.mem_cons_of_mem _ hm)
    · rename_i c hc
      refine ih (h.eraseTemporal hc (hk cid List.mem_cons_self c hc) rfl rfl rfl rfl)
        fun cid' hm d hd => ?_
      have hd := (OrdMap.getElem?_erase _ _ _).symm.trans hd
      split at hd
      · cases hd
      · exact hk cid' (List.mem_cons_of_mem _ hm) d hd

theorem dropPhysical_minRowIds (hs : OnlyStats sub) (s : ChunkStore) (ids : List ChunkId) :
    (s.dropPhysical sub ids).1.physicalChunkIdsPerMinRowId = s.physicalChunkIdsPerMinRowId := by
  induction ids generalizing s with
  | nil => rfl
  | cons cid rest ih =>
    rw [dropPhysical]
    split
    · exact ih s
    · exact (ih _).trans (hs _ _).2.2

theorem mem_forgetMinRowIds (s : ChunkStore) (ids : List ChunkId) (key : RowId ×ₗ ChunkId) :
    key ∈ (ids.foldl forgetMinRowId s).physicalChunkIdsPerMinRowId ↔
      key ∈ s.physicalChunkIdsPerMinRowId ∧ ∀ cid ∈ ids, ∀ c,
        s.physicalChunksPerChunkId[cid]? = some c →
          c.rowIdMin.map (fun rowId => toLex (rowId, cid)) ≠ some key := by
  induction ids generalizing s with
  | nil => simp
  | cons cid rest ih =>
    obtain ⟨minRowIds, he⟩ := forgetMinRowId_eq s cid
    have hp : (s.forgetMinRowId cid).physicalChunksPerChunkId = s.physicalChunksPerChunkId := by
      rw [he]
    have hone : key ∈ (s.forgetMinRowId cid).physicalChunkIdsPerMinRowId ↔
        key ∈ s.physicalChunkIdsPerMinRowId ∧ ∀ c, s.physicalChunksPerChunkId[cid]? = some c →
          c.rowIdMin.map (fun rowId => toLex (rowId, cid)) ≠ some key := by
      unfold forgetMinRowId
      cases hc : s.physicalChunksPerChunkId[cid]? with
      | none => simp
      | some c =>
        cases hr : c.rowIdMin with
        | none => simp [hr]
        | some rowId =>
          simp only [Option.bind_some, hr, Option.some.injEq, forall_eq']
          exact mem_erase_minRowId s rowId cid key
    rw [List.foldl_cons, ih, hone, hp, List.forall_mem_cons, and_assoc]

theorem dropEntityPath_minRowIds (env : Env) (s : ChunkStore) (e : EntityPath) :
    ∃ minRowIds, (∀ key, key ∈ minRowIds ↔ key ∈ s.physicalChunkIdsPerMinRowId ∧
        ∀ cid ∈ s.staticIdsOf e ++ s.temporalIdsOf e, ∀ c,
          s.physicalChunksPerChunkId[cid]? = some c →
            c.rowIdMin.map (fun rowId => toLex (rowId, cid)) ≠ some key) ∧
      (s.dropEntityPath env e).1 =
        (({ s.eraseEntity e with physicalChunkIdsPerMinRowId := minRowIds }.dropPhysical
          (fun s c => s.subStaticStats (.fromChunk env c)) (s.staticIdsOf e)).1.dropPhysical
            (fun s c => s.subTemporalStats (.fromChunk env c)) (s.temporalIdsOf e)).1 := by
  have hrows := mem_forgetMinRowIds (s.eraseEntity e) (s.staticIdsOf e ++ s.temporalIdsOf e)
  obtain ⟨minRowIds, he⟩ := forgetMinRowIds_eq (s.eraseEntity e)
    (s.staticIdsOf e ++ s.temporalIdsOf e)
  rw [he] at hrows
  refine ⟨minRowIds, hrows, ?_⟩
  rw [← he, List.foldl_append]
  rfl

theorem RowsExact.dropEntityPath {s : ChunkStore} (h : s.RowsExact) (env : Env) (e : EntityPath) :
    (s.dropEntityPath env e).1.RowsExact := by
  obtain ⟨minRowIds, hrows, hdrop⟩ := dropEntityPath_minRowIds env s e
  intro rowId cid
  rw [dropEntityPath_physical env s e, hdrop, dropPhysical_minRowIds onlyStats_temporal,
    dropPhysical_minRowIds onlyStats_static]
  refine (hrows (toLex (rowId, cid))).trans ?_
  rw [h rowId cid]
  by_cases hm : cid ∈ s.staticIdsOf e ∨ cid ∈ s.temporalIdsOf e
  · rw [if_pos hm]
    refine ⟨fun ⟨⟨c, hc, hr⟩, hall⟩ => absurd ?_ (hall cid (List.mem_append.mpr hm) c hc),
      fun ⟨c, hc, _⟩ => (Option.some_ne_none c hc.symm).elim⟩
    rw [hr]
    rfl
  · rw [if_neg hm]
    rw [← List.mem_append] at hm
    refine ⟨And.left, fun hc => ⟨hc, fun cid' hm' c' _ heq => hm ?_⟩⟩
    obtain ⟨rowId', -, he⟩ := Option.map_eq_some_iff.mp heq
    have hid : cid' = cid := (Prod.ext_iff.mp (toLex.injective he)).2
    exact hid ▸ hm'

theorem Exact.dropEntityPath {s : ChunkStore} {kind : ChunkId → Bool}
    (h : Exact env (fun _ => 0) s) (hk : Kinded kind s) (e : EntityPath) :
    Exact env (fun _ => 0) (s.dropEntityPath env e).1 := by
  have hstatic : ∀ cid ∈ s.staticIdsOf e, ∀ c, s.physicalChunksPerChunkId[cid]? = some c →
      c.isStatic = true := by
    intro cid hm c hc
    obtain ⟨component, hcid⟩ := mem_staticIdsOf.mp hm
    rw [hk.physical hc, hk.static hcid]
  have htemporal : ∀ cid ∈ s.temporalIdsOf e, ∀ c, s.physicalChunksPerChunkId[cid]? = some c →
      c.isStatic = false := by
    intro cid hm c hc
    obtain ⟨timeline, time, hcid⟩ := mem_temporalIdsOf.mp hm
    rw [hk.physical hc, hk.temporal hcid]
  refine ⟨?_, h.rows.dropEntityPath env e⟩
  obtain ⟨minRowIds, -, hdrop⟩ := dropEntityPath_minRowIds env s e
  rw [hdrop]
  have h0 : StatsExact env (fun _ => 0)
      { s.eraseEntity e with physicalChunkIdsPerMinRowId := minRowIds } :=
    h.stats.of_eq rfl rfl rfl rfl
  refine (h0.dropStatic hstatic).dropTemporal fun cid hm c hc => ?_
  rw [dropPhysical_physical onlyStats_static] at hc
  split at hc
  · cases hc
  · exact htemporal cid hm c hc

-- ---------------------------------------------------------------------------
-- Kinds
-- ---------------------------------------------------------------------------

theorem Kinded.of_sub {kind : ChunkId → Bool} {s s' : ChunkStore} (h : Kinded kind s)
    (hp : PhysicalSub s s') (hs : SlotsSub s s' (kind · = false))
    (hst : ∀ e component cid, s'.staticChunkId? e component = some cid →
      s.staticChunkId? e component = some cid ∨ kind cid = true) : Kinded kind s' where
  physical hc := h.physical (hp.some hc)
  static hc := (hst _ _ _ hc).elim h.static id
  temporal hc := ((hs _ _ _).1 hc).elim h.temporal id

theorem Kinded.of_same {kind : ChunkId → Bool} {s s' : ChunkStore} (h : Kinded kind s)
    (hp : PhysicalSub s s') (hs : ∀ slot, s'.at slot = s.at slot)
    (hst : s'.staticChunkIdsPerEntity = s.staticChunkIdsPerEntity) : Kinded kind s' :=
  h.of_sub hp (.of_at hs) fun _ _ _ hc => .inl (by rwa [staticChunkId?, hst] at hc)

theorem Kinded.removeChunksDeep {kind : ChunkId → Bool} {s : ChunkStore} (h : Kinded kind s)
    {chunks : List Chunk} (hw : ∀ c ∈ chunks, c.WellFormed) (reason : ChunkDeletionReason)
    (exhausted : Nat → Bool) : Kinded kind (s.removeChunksDeep env reason exhausted chunks).1 :=
  h.of_sub (removeChunksDeep_physicalSub _ _ _ _ _) (slotsSub_removeChunksDeep hw reason exhausted _)
    fun e component cid hc => .inl (by rwa [staticChunkId?, removeChunksDeep_staticIds] at hc)

/-- Timelines keep their types, and ids tell static from temporal chunks. -/
def Policy.kinded (types : EntityPath → TimelineName → Timeline) (kind : ChunkId → Bool) :
    Policy where
  chunk := HasTypes types
  closed he hc h entry hm := he ▸ h entry (hc entry hm)
  insert archive c := c.isStatic = kind c.id ∧
    ∀ d, archive[c.id]? = some d → d.isStatic = c.isStatic
  announceStatic _ entry := kind entry.2.2 = true
  announceTemporal _ entry := kind entry.2.2.2.1 = false
  unique := True
  insert_unique _ _ _ _ h hd := h.2 _ hd
  sweep _ _ := True

variable {types : EntityPath → TimelineName → Timeline} {kind : ChunkId → Bool}

theorem Kinded.insertPhysical {s : ChunkStore} {c : Chunk} (h : Kinded kind s)
    (hc : c.isStatic = kind c.id) : Kinded kind (s.insertPhysical c) where
  physical {cid d} hd := by
    rw [insertPhysical_physical] at hd
    split at hd
    · cases hd
      subst cid
      exact hc
    · exact h.physical hd
  static hd := h.static hd
  temporal hd := h.temporal (at_insertPhysical s c _ ▸ hd)

theorem Kinded.stored {s s' : ChunkStore} {c : Chunk} (h : Kinded kind s)
    (hkind : ∀ n, kind (env.newId n) = false) (hcore : Core env (.kinded types kind) s)
    (hc : c.Storable) (ht : HasTypes types c) (hk : c.isStatic = kind c.id)
    (hs : Stored env s c s' diffs) : Kinded kind s' := by
  have hsub : SlotsSub s s' (kind · = false) := by
    refine (hs.slotsSub hcore hc).mono ?_
    rintro cid (⟨rfl, hst⟩ | ⟨k, -, rfl⟩)
    · exact hk.symm.trans hst
    · exact hkind k
  cases hs with
  | @static lineage hst _ =>
    obtain ⟨-, hp⟩ := storeStatic_frame env s c lineage
    refine Kinded.insertPhysical (h.of_sub hp (fun slot time x => ?_) fun e component cid hx => ?_) hk
    · simpa only [at_insertPhysical] using hsub slot time x
    · rw [storeStatic_staticChunkId?] at hx
      rcases overwriteComponents_staticChunkId? c c.components hc.wellFormed.components_nodup
        (s, ∅) e component with ⟨hx', -⟩ | ⟨hx', -⟩
      · obtain rfl := Option.some.inj (hx'.symm.trans hx)
        exact .inr (hk.symm.trans hst)
      · exact .inl (hx'.symm.trans hx)
  | asIs before hst _ =>
    have hp : PhysicalSub s (s.insertIntoIndices env c) := .of_eq rfl
    exact Kinded.insertPhysical (h.of_sub hp (fun slot time x => by
      simpa only [at_insertPhysical] using hsub slot time x) fun _ _ _ hx => .inl hx) hk
  | @compacted n elected compacted hcomp =>
    have hst := hcomp.isStatic_eq_false ht (hcore.allowed hcomp.physical)
    obtain ⟨k, -, -, hid⟩ := hcomp.drawn
    have hphys := replaceElected_physical env { s with issued := n } elected compacted
    have hp : PhysicalSub s ({ s with issued := n }.compactInto env c elected compacted).1 := by
      intro key
      rw [compactInto_eq]
      refine (em (key = elected.id)).symm.imp (fun hk => ?_) fun hk => ?_
      · exact (hphys key).trans (if_neg hk)
      · exact (hphys key).trans (if_pos hk)
    refine Kinded.insertPhysical (h.of_sub hp (fun slot time x => by
      simpa only [at_insertPhysical] using hsub slot time x) fun e component cid hx => .inl ?_)
      (hst.trans (hid ▸ hkind k).symm)
    rw [compactInto_eq] at hx
    exact (congrArg (fun m => (TreeMap.getD m e ∅)[component]?)
      (replaceElected_staticIds { s with issued := n } elected compacted)).symm.trans hx

theorem Step.kinded {s s' : ChunkStore} (h : Kinded kind s)
    (hkind : ∀ n, kind (env.newId n) = false) (hcore : Core env (.kinded types kind) s)
    (hs : Step env (.kinded types kind) s diffs s') : Kinded kind s' := by
  cases hs with
  | draw _ | nextInsert | forgetSplit _ | recordSplit _ _ _ | recordLineage _ _ | announced _ =>
    exact h.of_same (.of_eq rfl) (fun slot => by cases slot <;> rfl) rfl
  | @announceStatic entry _ hk =>
    have hp : PhysicalSub s (s.announceStatic entry) := .of_eq rfl
    refine h.of_sub hp (.of_at fun slot => by cases slot <;> rfl) fun e component cid hx => ?_
    rw [staticChunkId?_announceStatic] at hx
    split at hx
    · exact .inr (Option.some.inj hx ▸ hk)
    · exact .inl hx
  | @announceTemporal entry _ hk =>
    have hp : PhysicalSub s (s.announceTemporal entry) := .of_eq rfl
    refine h.of_sub hp ((slotsSub_announceTemporal s entry).mono ?_) fun _ _ _ hx => .inl hx
    rintro _ rfl
    exact hk
  | replaceVirtual reason hw _ =>
    exact h.removeChunksDeep (fun d hd => List.mem_singleton.mp hd ▸ hw) reason _
  | store hc _ _ ht hi hst =>
    refine h.stored hkind hcore hc ht ?_ hst
    rcases hi with hi | ⟨-, ⟨k, hid⟩, hst⟩
    · exact hi.1
    · exact hst.trans (hid ▸ hkind k).symm
  | removeShallow reason exhausted _ _ =>
    have hsame := removeChunksShallow_sameIndices env reason s exhausted
    exact h.of_same (removeChunksShallow_physicalSub _ _ _ _ _) (hsame _).at_eq (hsame _).staticIds
  | removeDeep reason hp _ | sweep reason hp _ _ =>
    exact h.removeChunksDeep (fun c hc => (hcore.storable (hp c hc)).wellFormed) reason _
  | dropEntityPath e =>
    refine h.of_sub (dropEntityPath_physicalSub env s e) (slotsSub_dropEntityPath s e _)
      fun e' component cid hx => .inl ?_
    rw [staticChunkId?_dropEntityPath] at hx
    split at hx
    · cases hx
    · exact hx

-- ---------------------------------------------------------------------------
-- Runs
-- ---------------------------------------------------------------------------

theorem Step.exact {s s' : ChunkStore} (h : Exact env (fun _ => 0) s) (hk : Kinded kind s)
    (hcore : Core env (.kinded types kind) s)
    (hs : Step env (.kinded types kind) s diffs s') : Exact env (fun _ => 0) s' := by
  cases hs with
  | draw _ | nextInsert | forgetSplit _ | recordSplit _ _ _ | recordLineage _ _ | announced _
  | announceStatic _ _ | announceTemporal _ _ => exact h.of_eq rfl rfl rfl rfl rfl
  | replaceVirtual reason _ hp =>
    exact h.removeChunksDeep (fun d hd => .inl (List.mem_singleton.mp hd ▸ hp)) reason _
  | store _ _ hp ht _ hst => exact h.stored hk hcore hp ht hcore.allowed hst
  | removeShallow reason exhausted hp hst =>
    exact h.removeChunksShallow (fun c hc => .inr ⟨hp c hc, hst c hc⟩) reason exhausted
  | removeDeep reason hp hst =>
    exact h.removeChunksDeep (fun c hc => .inr ⟨hp c hc, hst trivial c hc⟩) reason _
  | sweep reason hp hst _ =>
    exact h.removeChunksDeep (fun c hc => .inr ⟨hp c hc, hst c hc⟩) reason _
  | dropEntityPath e => exact h.dropEntityPath hk e

theorem Step.rowsExact {s s' : ChunkStore} (hcore : Core env pol s) (h : s.RowsExact)
    (hs : Step env pol s diffs s') : s'.RowsExact := by
  cases hs with
  | draw _ | nextInsert | forgetSplit _ | recordSplit _ _ _ | recordLineage _ _ | announced _
  | announceStatic _ _ | announceTemporal _ _ => exact h.of_eq rfl rfl
  | replaceVirtual reason _ hp =>
    exact h.removeChunksDeep (fun d hd => .inl (List.mem_singleton.mp hd ▸ hp)) env reason _
  | store _ _ hp _ _ hst => exact h.stored hcore hp hst
  | removeShallow reason exhausted hp _ =>
    exact h.removeChunksShallow (fun c hc => .inr (hp c hc)) env reason exhausted
  | removeDeep reason hp _ => exact h.removeChunksDeep (fun c hc => .inr (hp c hc)) env reason _
  | sweep reason hp _ _ => exact h.removeChunksDeep (fun c hc => .inr (hp c hc)) env reason _
  | dropEntityPath e => exact h.dropEntityPath env e

theorem rowsExact_new (config : ChunkStoreConfig) : (ChunkStore.new config).RowsExact := by
  intro rowId cid
  simp [ChunkStore.new]

theorem rowsExact_of_reached {s : ChunkStore} (h : Reached env pol config s) : s.RowsExact :=
  h.invariant (rowsExact_new config) fun _ _ _ hcore hr hs => hs.rowsExact hcore hr

theorem exact_new (env : Env) (config : ChunkStoreConfig) :
    Exact env (fun _ => 0) (ChunkStore.new config) := by
  refine ⟨⟨?_, ?_, rfl⟩, rowsExact_new config⟩
  · rfl
  · rfl

theorem kinded_new (kind : ChunkId → Bool) (config : ChunkStoreConfig) :
    Kinded kind (ChunkStore.new config) where
  physical h := by simp [ChunkStore.new] at h
  static h := by simp [ChunkStore.new, staticChunkId?] at h
  temporal h := (ChunkIdSetPerTime.not_mem_startIds_default (at_new config _ ▸ h)).elim

/-- The smallest row ids and the statistics are those of the physical chunks, and
no subtraction of statistics was clamped. -/
theorem bookkeeping_of_reached {s : ChunkStore} (hkind : ∀ n, kind (env.newId n) = false)
    (h : Reached env (.kinded types kind) config s) :
    (∀ rowId cid, toLex (rowId, cid) ∈ s.physicalChunkIdsPerMinRowId ↔
      ∃ c, s.physicalChunksPerChunkId[cid]? = some c ∧ rowId ∈ c.rowIds ∧
        ∀ r ∈ c.rowIds, rowId ≤ r) ∧
    s.temporalPhysicalChunksStats = sumStats env false s.physicalChunksPerChunkId ∧
    s.staticChunksStats = sumStats env true s.physicalChunksPerChunkId ∧
    s.statsUnderflow = false := by
  have hinv : Kinded kind s ∧ Exact env (fun _ => 0) s :=
    @Reached.invariant env (.kinded types kind) config
      (fun s => Kinded kind s ∧ Exact env (fun _ => 0) s) s h
      ⟨kinded_new kind config, exact_new env config⟩ fun _ _ _ hcore hi hs =>
        ⟨hs.kinded hi.1 hkind hcore, hs.exact hi.2 hi.1 hcore⟩
  obtain ⟨-, ⟨ht, hs, hu⟩, hrows⟩ := hinv
  rw [zero_add] at ht hs
  refine ⟨fun rowId cid => (hrows rowId cid).trans (exists_congr fun c => ?_), ht, hs, hu⟩
  refine and_congr_right fun hc => ?_
  have hst := h.core.storable hc
  obtain ⟨least, hmin, hmem, hle⟩ := Chunk.rowIdMin_eq hst.wellFormed hst.rowIds_ne
  rw [hmin, Option.some.injEq]
  refine ⟨fun he => he ▸ ⟨hmem, hle⟩, fun ⟨hm, hl⟩ => le_antisymm (hle _ hm) (hl _ hmem)⟩

theorem bookkeeping_of_reached_busyRun :
    let s := run .plain .DEFAULT busyRun
    (∀ rowId cid, toLex (rowId, cid) ∈ s.physicalChunkIdsPerMinRowId ↔
      ∃ c, s.physicalChunksPerChunkId[cid]? = some c ∧ rowId ∈ c.rowIds ∧
        ∀ r ∈ c.rowIds, rowId ≤ r) ∧
      s.temporalPhysicalChunksStats = sumStats .plain false s.physicalChunksPerChunkId ∧
      s.staticChunksStats = sumStats .plain true s.physicalChunksPerChunkId ∧
      s.statsUnderflow = false := by
  have hkind : ∀ n, decide (Env.plain.newId n ∈ [4, 5]) = false := by
    intro n
    refine decide_eq_false fun hm => ?_
    have hlt : 1000 + n < 6 := (by decide : ∀ cid ∈ [4, 5], cid < 6) _ hm
    omega
  have h : Reached .plain (.kinded (fun _ _ => ⟨"t", .sequence⟩) fun cid => decide (cid ∈ [4, 5]))
      .DEFAULT (run .plain .DEFAULT busyRun) := by
    refine reached_run (legals_busyRun (fun c hc archive hnew => ?_) fun _ _ _ _ => trivial)
    have hallowed : ∀ c ∈ busyChunks, HasTypes (fun _ _ => ⟨"t", .sequence⟩) c ∧
        c.isStatic = decide (c.id ∈ [4, 5]) := by
      unfold HasTypes
      decide
    exact ⟨(hallowed c hc).1, (hallowed c hc).2, fun d hd => by
      rw [hnew] at hd
      cases hd⟩
  exact bookkeeping_of_reached hkind h

/-- Two neighbors that use the timeline with different types. -/
def retypedRun : List Op :=
  [.insertChunk (.single 1 1 0),
    .insertChunk (.ofColumns 2 ["e"] [2] [(⟨"t", .durationNs⟩, [.newTemporal 10])]
      [("c", [some []])])]

/-- They are merged without the timeline, and counted as a temporal chunk. -/
theorem retypedRun_not_counted :
    Reached .plain .any .DEFAULT (run .plain .DEFAULT retypedRun) ∧
      (run .plain .DEFAULT retypedRun).temporalPhysicalChunksStats ≠
        sumStats .plain false (run .plain .DEFAULT retypedRun).physicalChunksPerChunkId := by
  refine ⟨reached_run ⟨⟨?_, ?_, trivial, trivial⟩, ⟨?_, ?_, trivial, trivial⟩, trivial⟩, ?_⟩
  · decide
  · exact Env.plain_not_future (by decide) _
  · decide
  · exact Env.plain_not_future (by decide) _
  · decide

end ChunkStore

end DimosViewer
