import DimosViewer.MaterializedView
import DimosViewer.Server.InMemoryStore

/-!
# Names and entries of the catalog agree

An entry and its name are added and removed together by every call that stays clear of
the four that do not: a rename, an overwritten name, a dataset that is refused after its
blueprint dataset was made, and a blueprint dataset deleted by itself. These break the
agreement at once.
-/

namespace DimosViewer.Server.InMemoryStore

open Std (TreeMap)
open NameIndex (Inverse)
open Reach.Reachable (Allows)

variable {s : InMemoryStore} {id : EntryId} {name : EntryName} {new : NewIds}

-- ---------------------------------------------------------------------------
-- What the catalog promises
-- ---------------------------------------------------------------------------

def Carries (s : InMemoryStore) (id : EntryId) (name : EntryName) : Prop :=
  (∃ d, s.datasets[id]? = some d ∧ d.name = name) ∨ (∃ t, s.tables[id]? = some t ∧ t.name = name)

def entryNames (s : InMemoryStore) : List EntryName :=
  s.datasets.values.map (·.name) ++ s.tables.values.map (·.name)

structure Consistent (s : InMemoryStore) : Prop where
  mapped {name : EntryName} {id : EntryId} : s.idByName[name]? = some id → s.Carries id name
  found {name : EntryName} {id : EntryId} : s.Carries id name → s.idByName[name]? = some id
  distinct : s.entryNames.Nodup
  /-- A dataset has its blueprint dataset. -/
  blueprint {id : EntryId} {d : Dataset} : s.datasets[id]? = some d → d.storeKind = .recording →
    ∃ b bd, d.details.blueprintDataset = some b ∧ s.datasets[b]? = some bd ∧
      bd.storeKind = .blueprint
  /-- A blueprint dataset has its dataset. -/
  owned {id : EntryId} {d : Dataset} : s.datasets[id]? = some d → d.storeKind = .blueprint →
    ∃ (owner : EntryId) (o : Dataset), s.datasets[owner]? = some o ∧ o.storeKind = .recording ∧
      o.details.blueprintDataset = some id

def Fresh (s : InMemoryStore) (c : Call × NewIds) : Prop :=
  (c.2.entry ≠ c.2.blueprint ∧ c.2.entry ≠ c.2.entriesTable ∧ c.2.blueprint ≠ c.2.entriesTable) ∧
  (s.idExists c.2.entry = false ∧ s.idExists c.2.blueprint = false ∧
    s.idExists c.2.entriesTable = false) ∧
  match c.1 with
  | .createDataset _ id => id ≠ some c.2.blueprint ∧ id ≠ some c.2.entriesTable
  | _ => True

/-- A name that no entry has can be given to an entry. -/
def Released (s : InMemoryStore) (name : EntryName) : Prop :=
  (∀ tableUrl new, (s.createTableEntry name (.ok tableUrl) new).1 = .ok new.entry) ∧
  (∀ id new, s.idExists id → (s.renameEntry id name new).1 = .ok ()) ∧
  (∀ new, s.Fresh (.createDataset name none, new) →
    (∀ id, ¬ s.Carries id (.blueprintFor new.entry)) → name ≠ .blueprintFor new.entry →
    (s.createDataset name none new).1 = .ok new.entry)

structure Sound (s : InMemoryStore) : Prop extends Consistent s where
  released {name : EntryName} : (∀ id, ¬ s.Carries id name) → s.Released name

def Orderly (s : InMemoryStore) (c : Call × NewIds) : Prop :=
  match c.1 with
  | .createDataset name id =>
    let id := id.getD c.2.entry
    .blueprintFor id ∈ s.idByName ∨
      name ∉ s.idByName ∧ name ≠ .blueprintFor id ∧ s.idExists id = false
  | .createTableEntry _ _ => True
  | .loadDirectoryAsTable name directory lance onDuplicate =>
    ∀ fileName entryName tableUrl, directory = .ok fileName →
      EntryName.new (name.getD fileName) = .ok entryName → lance = .ok tableUrl →
      entryName ∉ s.idByName ∨ (s.tableByName entryName).isSome ∧ onDuplicate ≠ .overwrite
  | .renameEntry id name => name ∈ s.idByName ∨ s.idExists id = false
  | .deleteEntry id => ∀ d ∈ s.datasets.values, d.details.blueprintDataset ≠ some id

-- ---------------------------------------------------------------------------
-- Lookups
-- ---------------------------------------------------------------------------

theorem notMem_iff [Ord α] [Std.TransOrd α] {m : TreeMap α β} {k : α} : k ∉ m ↔ m[k]? = none := by
  rw [TreeMap.mem_iff_isSome_getElem?, Option.not_isSome_iff_eq_none]

theorem idExists_eq_false : s.idExists id = false ↔ s.datasets[id]? = none ∧ s.tables[id]? = none := by
  rw [idExists, Bool.or_eq_false_iff, decide_eq_false_iff_not, decide_eq_false_iff_not, notMem_iff,
    notMem_iff, and_comm]

def nameOf (s : InMemoryStore) (id : EntryId) : Option EntryName :=
  (s.datasets[id]?.map (·.name)).or (s.tables[id]?.map (·.name))

theorem nameOf_eq_none : s.nameOf id = none ↔ s.idExists id = false := by
  rw [nameOf, Option.or_eq_none_iff, Option.map_eq_none_iff, Option.map_eq_none_iff,
    idExists_eq_false]

/-- The system table, as `update_entries_table` finds or makes it. -/
def systemId (s : InMemoryStore) (new : EntryId) : EntryId := s.idByName.getD .entriesTable new

theorem updateEntriesTable_idByName (s : InMemoryStore) (new : EntryId) (name : EntryName) :
    (s.updateEntriesTable new).idByName[name]? =
      if EntryName.entriesTable = name then some (s.systemId new) else s.idByName[name]? :=
  OrdMap.getElem?_insert ..

theorem updateEntriesTable_tables (s : InMemoryStore) (new : EntryId) :
    ∃ t : Table, t.name = .entriesTable ∧ ∀ id, (s.updateEntriesTable new).tables[id]? =
      if s.systemId new = id then some t else s.tables[id]? := by
  refine ⟨⟨s.systemId new, .entriesTable, .dataFusionTable (entriesTable { s with
    idByName := s.idByName.insert .entriesTable (s.systemId new)
    tables := s.tables.erase (s.systemId new) }), .systemTable⟩, rfl, fun id => ?_⟩
  refine (OrdMap.getElem?_insert (s.tables.erase (s.systemId new)) ..).trans ?_
  by_cases h : s.systemId new = id
  · rw [if_pos h]
    exact if_pos h
  · rw [if_neg h]
    exact (if_neg h).trans ((OrdMap.getElem?_erase ..).trans (if_neg h))

theorem updateEntriesTable_present (h : s.idByName[EntryName.entriesTable]? = some e)
    (new : EntryId) :
    (∀ name : EntryName, (s.updateEntriesTable new).idByName[name]? = s.idByName[name]?) ∧
    ∃ t : Table, t.name = .entriesTable ∧ ∀ id : EntryId,
      (s.updateEntriesTable new).tables[id]? = if e = id then some t else s.tables[id]? := by
  have he : s.systemId new = e := by
    rw [systemId, TreeMap.getD_eq_getD_getElem?, h]
    rfl
  obtain ⟨t, ht, htables⟩ := s.updateEntriesTable_tables new
  rw [he] at htables
  refine ⟨fun name => ?_, t, ht, htables⟩
  rw [updateEntriesTable_idByName, he]
  by_cases hn : EntryName.entriesTable = name
  · subst hn
    rw [if_pos rfl, h]
  · rw [if_neg hn]

theorem nameOf_insertDataset (d : Dataset) (idByName : TreeMap EntryName EntryId) (k : EntryId) :
    nameOf { s with datasets := s.datasets.insert id d, idByName } k =
      if id = k then some d.name else s.nameOf k := by
  simp only [nameOf, OrdMap.getElem?_insert]
  split <;> rfl

theorem nameOf_insertTable (h : s.datasets[id]? = none) (t : Table)
    (idByName : TreeMap EntryName EntryId) (k : EntryId) :
    nameOf { s with tables := s.tables.insert id t, idByName } k =
      if id = k then some t.name else s.nameOf k := by
  simp only [nameOf, OrdMap.getElem?_insert]
  split
  · rename_i hk
    rw [← hk, h]
    rfl
  · rfl

theorem nameOf_eraseDataset (h : s.tables[id]? = none) (idByName : TreeMap EntryName EntryId)
    (k : EntryId) :
    nameOf { s with datasets := s.datasets.erase id, idByName } k =
      if id = k then none else s.nameOf k := by
  simp only [nameOf, OrdMap.getElem?_erase]
  split
  · rename_i hk
    rw [← hk, h]
    rfl
  · rfl

theorem nameOf_eraseTable (h : s.datasets[id]? = none) (idByName : TreeMap EntryName EntryId)
    (k : EntryId) :
    nameOf { s with tables := s.tables.erase id, idByName } k =
      if id = k then none else s.nameOf k := by
  simp only [nameOf, OrdMap.getElem?_erase]
  split
  · rename_i hk
    rw [← hk, h]
    rfl
  · rfl

-- ---------------------------------------------------------------------------
-- Names
-- ---------------------------------------------------------------------------

structure Named (s : InMemoryStore) : Prop where
  inverse : Inverse (fun name : EntryName => s.idByName[name]?) s.nameOf
  disjoint {id : EntryId} {d : Dataset} : s.datasets[id]? = some d → s.tables[id]? = none
  system {id : EntryId} : s.idByName[EntryName.entriesTable]? = some id → s.datasets[id]? = none

namespace Named

theorem index (h : s.Named) : s.idByName[name]? = some id ↔ s.nameOf id = some name :=
  h.inverse name id

theorem carries (h : s.Named) : s.Carries id name ↔ s.nameOf id = some name := by
  rw [Carries, nameOf]
  cases hd : s.datasets[id]? with
  | some d => simp [h.disjoint hd]
  | none => simp

theorem nodup (h : s.Named) : s.entryNames.Nodup := by
  rw [entryNames, OrdMap.values_eq_map_toList, OrdMap.values_eq_map_toList, List.map_map,
    List.map_map]
  refine List.nodup_append.mpr ⟨?_, ?_, ?_⟩
  · refine List.Nodup.map_on (fun x hx y hy hxy => ?_) (OrdMap.nodup_toList _)
    rw [TreeMap.mem_toList_iff_getElem?_eq_some] at hx hy
    have hid : x.1 = y.1 := h.inverse.injective (n := x.2.name)
      (h.carries.mp (.inl ⟨_, hx, rfl⟩)) (h.carries.mp (.inl ⟨_, hy, hxy.symm⟩))
    rw [hid, hy] at hx
    exact Prod.ext hid (Option.some.inj hx).symm
  · refine List.Nodup.map_on (fun x hx y hy hxy => ?_) (OrdMap.nodup_toList _)
    rw [TreeMap.mem_toList_iff_getElem?_eq_some] at hx hy
    have hid : x.1 = y.1 := h.inverse.injective (n := x.2.name)
      (h.carries.mp (.inr ⟨_, hx, rfl⟩)) (h.carries.mp (.inr ⟨_, hy, hxy.symm⟩))
    rw [hid, hy] at hx
    exact Prod.ext hid (Option.some.inj hx).symm
  · intro n hn n' hn' heq
    subst heq
    obtain ⟨x, hx, hxn⟩ := List.mem_map.mp hn
    obtain ⟨y, hy, hyn⟩ := List.mem_map.mp hn'
    rw [TreeMap.mem_toList_iff_getElem?_eq_some] at hx hy
    have hid : x.1 = y.1 := h.inverse.injective (n := n)
      (h.carries.mp (.inl ⟨_, hx, hxn⟩)) (h.carries.mp (.inr ⟨_, hy, hyn⟩))
    have hnone := h.disjoint hx
    rw [hid, hy] at hnone
    cases hnone

theorem insertDataset (h : s.Named) (hn : s.idByName[d.name]? = none) (hi : s.idExists id = false)
    (hname : d.name ≠ .entriesTable) :
    Named { s with
      datasets := s.datasets.insert id d
      idByName := s.idByName.insert d.name id } where
  inverse := h.inverse.insert hn (nameOf_eq_none.mpr hi) (fun _ => OrdMap.getElem?_insert ..)
    (nameOf_insertDataset d _)
  disjoint {id' _} hd := by
    rw [OrdMap.getElem?_insert] at hd
    split at hd
    · rename_i hk
      exact hk ▸ (idExists_eq_false.mp hi).2
    · exact h.disjoint hd
  system {id'} hs := by
    rw [OrdMap.getElem?_insert, if_neg hname] at hs
    have hne : id ≠ id' := by
      rintro rfl
      have := h.index.mp hs
      rw [nameOf_eq_none.mpr hi] at this
      cases this
    exact (OrdMap.getElem?_insert ..).trans ((if_neg hne).trans (h.system hs))

theorem insertTable (h : s.Named) (hn : s.idByName[t.name]? = none) (hi : s.idExists id = false) :
    Named { s with
      tables := s.tables.insert id t
      idByName := s.idByName.insert t.name id } where
  inverse := h.inverse.insert hn (nameOf_eq_none.mpr hi) (fun _ => OrdMap.getElem?_insert ..)
    (nameOf_insertTable (idExists_eq_false.mp hi).1 t _)
  disjoint {id' _} hd := by
    refine (OrdMap.getElem?_insert ..).trans ?_
    split
    · rename_i hk
      rw [← hk, (idExists_eq_false.mp hi).1] at hd
      cases hd
    · exact h.disjoint hd
  system {id'} hs := by
    rw [OrdMap.getElem?_insert] at hs
    split at hs
    · cases hs
      exact (idExists_eq_false.mp hi).1
    · exact h.system hs

theorem eraseDataset (h : s.Named) (hd : s.datasets[id]? = some d) :
    Named { s with
      datasets := s.datasets.erase id
      idByName := s.idByName.erase d.name } where
  inverse := h.inverse.erase (h.carries.mp (.inl ⟨d, hd, rfl⟩))
    (fun _ => OrdMap.getElem?_erase ..) (nameOf_eraseDataset (h.disjoint hd) _)
  disjoint {id' _} hd' := by
    rw [OrdMap.getElem?_erase] at hd'
    split at hd'
    · cases hd'
    · exact h.disjoint hd'
  system {id'} hs := by
    rw [OrdMap.getElem?_erase] at hs
    refine (OrdMap.getElem?_erase ..).trans ?_
    split at hs
    · cases hs
    · rw [h.system hs, ite_self]

theorem eraseTable (h : s.Named) (ht : s.tables[id]? = some t) :
    Named { s with
      tables := s.tables.erase id
      idByName := s.idByName.erase t.name } where
  inverse := by
    have hd : s.datasets[id]? = none := by
      by_contra hd
      obtain ⟨d, hd⟩ := Option.ne_none_iff_exists'.mp hd
      rw [h.disjoint hd] at ht
      cases ht
    exact h.inverse.erase (h.carries.mp (.inr ⟨t, ht, rfl⟩)) (fun _ => OrdMap.getElem?_erase ..)
      (nameOf_eraseTable hd _)
  disjoint {id' _} hd := by
    refine (OrdMap.getElem?_erase ..).trans ?_
    rw [h.disjoint hd, ite_self]
  system {id'} hs := by
    rw [OrdMap.getElem?_erase] at hs
    split at hs
    · cases hs
    · exact h.system hs

theorem updateEntriesTable (h : s.Named) (new : EntryId)
    (hnew : s.idByName[EntryName.entriesTable]? = none → s.idExists new = false) :
    (s.updateEntriesTable new).Named ∧
      (s.updateEntriesTable new).idByName[EntryName.entriesTable]?.isSome := by
  obtain ⟨t, ht, htables⟩ := s.updateEntriesTable_tables new
  have hsystem : s.datasets[s.systemId new]? = none := by
    rw [systemId, TreeMap.getD_eq_getD_getElem?]
    cases he : s.idByName[EntryName.entriesTable]? with
    | some e => exact h.system he
    | none => exact (idExists_eq_false.mp (hnew he)).1
  have hname : ∀ k, (s.updateEntriesTable new).nameOf k =
      if s.systemId new = k then some .entriesTable else s.nameOf k := by
    intro k
    rw [nameOf, htables, updateEntriesTable_datasets, nameOf]
    split
    · rename_i hk
      rw [← hk, hsystem, ← ht]
      rfl
    · rfl
  have hindex := s.updateEntriesTable_idByName new
  refine ⟨⟨?_, ?_, ?_⟩, by rw [hindex, if_pos rfl]; rfl⟩
  · cases he : s.idByName[EntryName.entriesTable]? with
    | some e =>
      have hsys : s.systemId new = e := by
        rw [systemId, TreeMap.getD_eq_getD_getElem?, he]
        rfl
      refine h.inverse.congr (fun n => ?_) fun k => ?_
      · rw [hindex, hsys]
        split
        · rename_i hn
          rw [← hn, he]
        · rfl
      · rw [hname, hsys]
        split
        · rename_i hk
          exact (h.index.mp (hk ▸ he)).symm
        · rfl
    | none =>
      have hsys : s.systemId new = new := by
        rw [systemId, TreeMap.getD_eq_getD_getElem?, he]
        rfl
      rw [hsys] at hname
      exact h.inverse.insert he (nameOf_eq_none.mpr (hnew he)) (fun n => by rw [hindex, hsys]) hname
  · intro id d hd
    rw [htables]
    split
    · rename_i hk
      rw [updateEntriesTable_datasets, ← hk, hsystem] at hd
      cases hd
    · exact h.disjoint hd
  · intro id hs
    rw [hindex, if_pos rfl] at hs
    cases hs
    exact hsystem

end Named

-- ---------------------------------------------------------------------------
-- Blueprints
-- ---------------------------------------------------------------------------

/-- Every dataset has a blueprint dataset of its own, and every blueprint dataset is one. -/
structure Paired (datasets : TreeMap EntryId Dataset) : Prop where
  blueprint {id : EntryId} {d : Dataset} : datasets[id]? = some d → d.storeKind = .recording →
    ∃ b bd, d.details.blueprintDataset = some b ∧ datasets[b]? = some bd ∧ bd.storeKind = .blueprint
  owned {id : EntryId} {d : Dataset} : datasets[id]? = some d → d.storeKind = .blueprint →
    ∃ (owner : EntryId) (o : Dataset), datasets[owner]? = some o ∧ o.storeKind = .recording ∧
      o.details.blueprintDataset = some id
  only {id b : EntryId} {d : Dataset} : datasets[id]? = some d →
    d.details.blueprintDataset = some b → d.storeKind = .recording
  unique {id id' b : EntryId} {d d' : Dataset} : datasets[id]? = some d → datasets[id']? = some d' →
    d.details.blueprintDataset = some b → d'.details.blueprintDataset = some b → id = id'

namespace Paired

variable {datasets : TreeMap EntryId Dataset} {b : EntryId} {d bd : Dataset}

theorem blueprint_mem (h : Paired datasets) (hd : datasets[id]? = some d)
    (hb : d.details.blueprintDataset = some b) :
    ∃ bd, datasets[b]? = some bd ∧ bd.storeKind = .blueprint := by
  obtain ⟨b', bd, hb', hbd, hkind⟩ := h.blueprint hd (h.only hd hb)
  rw [hb] at hb'
  cases hb'
  exact ⟨bd, hbd, hkind⟩

theorem insert (h : Paired datasets) (hid : datasets[id]? = none) (hbid : datasets[b]? = none)
    (hne : id ≠ b) (hkind : d.storeKind = .recording) (hb : d.details.blueprintDataset = some b)
    (hbkind : bd.storeKind = .blueprint) (hbb : bd.details.blueprintDataset = none) :
    Paired ((datasets.insert b bd).insert id d) := by
  have hget : ∀ k : EntryId, ((datasets.insert b bd).insert id d)[k]? =
      if id = k then some d else if b = k then some bd else datasets[k]? := by
    intro k
    rw [OrdMap.getElem?_insert, OrdMap.getElem?_insert]
  have hold : ∀ {k : EntryId} {v : Dataset}, datasets[k]? = some v →
      ((datasets.insert b bd).insert id d)[k]? = some v := by
    intro k v hk
    rw [hget, if_neg (fun h => by rw [← h, hid] at hk; cases hk),
      if_neg (fun h => by rw [← h, hbid] at hk; cases hk), hk]
  refine ⟨?_, ?_, ?_, ?_⟩
  · intro k v hk hv
    rw [hget] at hk
    split at hk
    · cases hk
      exact ⟨b, bd, hb, by rw [hget, if_neg hne, if_pos rfl], hbkind⟩
    split at hk
    · cases hk
      rw [hbkind] at hv
      cases hv
    · obtain ⟨b', bd', hb', hbd', hkind'⟩ := h.blueprint hk hv
      exact ⟨b', bd', hb', hold hbd', hkind'⟩
  · intro k v hk hv
    rw [hget] at hk
    split at hk
    · cases hk
      rw [hkind] at hv
      cases hv
    split at hk
    · rename_i hbk
      exact ⟨id, d, by rw [hget, if_pos rfl], hkind, hbk ▸ hb⟩
    · obtain ⟨owner, o, ho, hokind, hob⟩ := h.owned hk hv
      exact ⟨owner, o, hold ho, hokind, hob⟩
  · intro k b' v hk hv
    rw [hget] at hk
    split at hk
    · cases hk
      exact hkind
    split at hk
    · cases hk
      rw [hbb] at hv
      cases hv
    · exact h.only hk hv
  · intro k k' b' v v' hk hk' hv hv'
    rw [hget] at hk hk'
    -- The new blueprint id is in no details that were there before.
    have hfresh : ∀ {k : EntryId} {v : Dataset}, datasets[k]? = some v →
        v.details.blueprintDataset ≠ some b := by
      intro k v hk hv
      obtain ⟨bd', hbd', -⟩ := h.blueprint_mem hk hv
      rw [hbid] at hbd'
      cases hbd'
    split at hk <;> split at hk'
    · simp_all
    · cases hk
      rw [hb] at hv
      cases hv
      split at hk'
      · cases hk'
        rw [hbb] at hv'
        cases hv'
      · exact absurd hv' (hfresh hk')
    · cases hk'
      rw [hb] at hv'
      cases hv'
      split at hk
      · cases hk
        rw [hbb] at hv
        cases hv
      · exact absurd hv (hfresh hk)
    · split at hk <;> split at hk'
      · simp_all
      · cases hk
        rw [hbb] at hv
        cases hv
      · cases hk'
        rw [hbb] at hv'
        cases hv'
      · exact h.unique hk hk' hv hv'

theorem erase (h : Paired datasets) (hd : datasets[id]? = some d)
    (hb : d.details.blueprintDataset = some b) : Paired ((datasets.erase id).erase b) := by
  have hget : ∀ k : EntryId, ((datasets.erase id).erase b)[k]? =
      if b = k then none else if id = k then none else datasets[k]? := by
    intro k
    rw [OrdMap.getElem?_erase, OrdMap.getElem?_erase]
  have hold : ∀ {k : EntryId} {v : Dataset}, ((datasets.erase id).erase b)[k]? = some v →
      datasets[k]? = some v ∧ b ≠ k ∧ id ≠ k := by
    intro k v hk
    rw [hget] at hk
    split at hk
    · cases hk
    split at hk
    · cases hk
    · exact ⟨hk, ‹_›, ‹_›⟩
  have hkeep : ∀ {k : EntryId} {v : Dataset}, datasets[k]? = some v → b ≠ k → id ≠ k →
      ((datasets.erase id).erase b)[k]? = some v := by
    intro k v hk hbk hidk
    rw [hget, if_neg hbk, if_neg hidk, hk]
  obtain ⟨bd, hbd, hbkind⟩ := h.blueprint_mem hd hb
  have hkind := h.only hd hb
  refine ⟨?_, ?_, fun hk hv => h.only (hold hk).1 hv,
    fun hk hk' hv hv' => h.unique (hold hk).1 (hold hk').1 hv hv'⟩
  · intro k v hk hv
    obtain ⟨hk, hbk, hidk⟩ := hold hk
    obtain ⟨b', bd', hb', hbd', hkind'⟩ := h.blueprint hk hv
    refine ⟨b', bd', hb', hkeep hbd' ?_ ?_, hkind'⟩
    · rintro rfl
      exact hidk (h.unique hd hk hb hb')
    · rintro rfl
      rw [hd] at hbd'
      cases hbd'
      rw [hkind] at hkind'
      cases hkind'
  · intro k v hk hv
    obtain ⟨hk, hbk, hidk⟩ := hold hk
    obtain ⟨owner, o, ho, hokind, hob⟩ := h.owned hk hv
    refine ⟨owner, o, hkeep ho ?_ ?_, hokind, hob⟩
    · rintro rfl
      rw [hbd] at ho
      cases ho
      rw [hbkind] at hokind
      cases hokind
    · rintro rfl
      rw [hd] at ho
      cases ho
      rw [hb] at hob
      cases hob
      exact hbk rfl

end Paired

-- ---------------------------------------------------------------------------
-- Calls
-- ---------------------------------------------------------------------------

/-- Between two calls. -/
structure Regular (s : InMemoryStore) : Prop extends Named s where
  paired : Paired s.datasets
  present : s.idByName[EntryName.entriesTable]?.isSome

namespace Regular

theorem consistent (h : s.Regular) : s.Consistent where
  mapped hn := h.carries.mpr (h.index.mp hn)
  found hc := h.index.mpr (h.carries.mp hc)
  distinct := h.nodup
  blueprint := h.paired.blueprint
  owned := h.paired.owned

theorem ne_entriesTable (h : s.Regular) (hn : s.idByName[name]? = none) : name ≠ .entriesTable := by
  rintro rfl
  have := h.present
  rw [hn] at this
  cases this

theorem empty (new : EntryId) : (empty new).Regular := by
  have hnamed : ({} : InMemoryStore).Named := by
    refine ⟨fun n i => ?_, ?_, ?_⟩ <;> simp [nameOf]
  obtain ⟨hnamed, hpresent⟩ := hnamed.updateEntriesTable new fun _ => by simp [idExists]
  refine ⟨hnamed, ?_, hpresent⟩
  constructor <;> simp [InMemoryStore.empty]

theorem addTableEntry (h : s.Regular) (hn : s.idByName[name]? = none) (hi : s.idExists id = false)
    (tableUrl : String) (new : NewIds) : (s.addTableEntry name id tableUrl new).Regular := by
  have hnamed := h.insertTable (t := ⟨id, name, .lanceDataset, .lanceTable tableUrl⟩) hn hi
  obtain ⟨hnamed, hpresent⟩ := hnamed.updateEntriesTable new.entriesTable fun hnone => by
    rw [OrdMap.getElem?_insert, if_neg (h.ne_entriesTable hn)] at hnone
    have := h.present
    rw [hnone] at this
    cases this
  exact ⟨hnamed, h.paired, hpresent⟩

theorem createDatasetImpl (h : s.Named) (hpresent : s.idByName[EntryName.entriesTable]?.isSome)
    (hn : s.idByName[name]? = none) (hi : s.idExists id = false) (storeKind : StoreKind)
    (details : Option DatasetDetails) (new : NewIds) :
    ∃ s', s.createDatasetImpl name id storeKind details new = (.ok id, s') ∧ s'.Named ∧
      s'.idByName[EntryName.entriesTable]?.isSome ∧
      s'.datasets = s.datasets.insert id ⟨id, name, storeKind, details.getD {}⟩ ∧
      (∀ name' : EntryName, s'.idByName[name']? =
        if name = name' then some id else s.idByName[name']?) ∧
      ∀ k : EntryId, s.tables[k]? = none → s'.tables[k]? = none := by
  have hne : name ≠ .entriesTable := by
    rintro rfl
    rw [hn] at hpresent
    cases hpresent
  obtain ⟨e, he⟩ := Option.isSome_iff_exists.mp hpresent
  have hnamed := h.insertDataset (d := ⟨id, name, storeKind, details.getD {}⟩) hn hi hne
  have he' : (s.idByName.insert name id)[EntryName.entriesTable]? = some e := by
    rw [OrdMap.getElem?_insert, if_neg hne, he]
  obtain ⟨hnamed, hpresent⟩ := hnamed.updateEntriesTable new.entriesTable fun hnone => by
    rw [he'] at hnone
    cases hnone
  refine ⟨_, by rw [InMemoryStore.createDatasetImpl, if_neg (notMem_iff.mpr hn), hi]; rfl, hnamed,
    hpresent, rfl, fun name' => ?_, fun k hk => ?_⟩
  · rw [(updateEntriesTable_present he' new.entriesTable).1]
    exact OrdMap.getElem?_insert ..
  · obtain ⟨-, t, -, htables⟩ := updateEntriesTable_present (s := { s with
      datasets := s.datasets.insert id ⟨id, name, storeKind, details.getD {}⟩
      idByName := s.idByName.insert name id }) he' new.entriesTable
    rw [htables, if_neg, hk]
    rintro rfl
    have hcarries := h.carries.mpr (h.index.mp he)
    obtain ⟨d, hd, -⟩ | ⟨t, ht, -⟩ := hcarries
    · rw [h.system he] at hd
      cases hd
    · rw [hk] at ht
      cases ht

theorem createBlueprint (h : s.Regular) (hn : s.idByName[EntryName.blueprintFor id]? = none)
    (hb : s.idExists new.blueprint = false) :
    ∃ s' : InMemoryStore, (∀ name, s.createDataset name (some id) new = s'.createDatasetImpl name id .recording
        (some { blueprintDataset := some new.blueprint }) new) ∧
      s'.Named ∧ s'.idByName[EntryName.entriesTable]?.isSome ∧
      s'.datasets = s.datasets.insert new.blueprint
        ⟨new.blueprint, .blueprintFor id, .blueprint, {}⟩ ∧
      (∀ name : EntryName, s'.idByName[name]? =
        if EntryName.blueprintFor id = name then some new.blueprint else s.idByName[name]?) ∧
      ∀ k : EntryId, s.tables[k]? = none → s'.tables[k]? = none := by
  obtain ⟨s', hs', hnamed, hpresent, hdatasets, hnames, htables⟩ :=
    createDatasetImpl h.toNamed h.present hn hb .blueprint none new
  refine ⟨s', fun name => ?_, hnamed, hpresent, hdatasets, hnames, htables⟩
  rw [createDataset, Option.getD_some, hs']

theorem createDataset (h : s.Regular) (hn : s.idByName[name]? = none)
    (hbn : s.idByName[EntryName.blueprintFor id]? = none) (hne : name ≠ .blueprintFor id)
    (hi : s.idExists id = false) (hb : s.idExists new.blueprint = false) (hid : id ≠ new.blueprint) :
    ∃ s', s.createDataset name (some id) new = (.ok id, s') ∧ s'.Regular := by
  obtain ⟨s₁, hcall, hnamed, hpresent, hdatasets, hnames, htables⟩ := h.createBlueprint hbn hb
  rw [hcall]
  have hi₁ : s₁.idExists id = false := by
    rw [idExists_eq_false] at hi ⊢
    refine ⟨?_, htables id hi.2⟩
    rw [hdatasets, OrdMap.getElem?_insert, if_neg (Ne.symm hid), hi.1]
  obtain ⟨s₂, hs₂, hnamed, hpresent, hdatasets₂, -, -⟩ := createDatasetImpl (s := s₁) hnamed hpresent (by rw [hnames, if_neg (Ne.symm hne), hn]) hi₁ .recording
    (some { blueprintDataset := some new.blueprint }) new
  refine ⟨s₂, hs₂, hnamed, ?_, hpresent⟩
  rw [hdatasets₂, hdatasets]
  exact h.paired.insert (idExists_eq_false.mp hi).1 (idExists_eq_false.mp hb).1 hid rfl rfl rfl rfl

end Regular

theorem deleteEntry_table (ht : s.tables[id]? = some t) (new : NewIds) :
    s.deleteEntry id new = (.ok (), { s with
      tables := s.tables.erase id
      idByName := s.idByName.erase t.name }.updateEntriesTable new.entriesTable) := by
  rw [deleteEntry, ht]

theorem deleteEntry_none (ht : s.tables[id]? = none) (hd : s.datasets[id]? = none) (new : NewIds) :
    s.deleteEntry id new = (.error (.entryIdNotFound id), s) := by
  rw [deleteEntry]
  simp only [ht]
  split
  · rename_i h
    rw [hd] at h
    cases h
  · rfl

theorem deleteEntry_dataset (ht : s.tables[id]? = none) (hd : s.datasets[id]? = some d)
    (new : NewIds) :
    s.deleteEntry id new =
      let s' := { s with
        datasets := s.datasets.erase id
        idByName := s.idByName.erase d.name }.updateEntriesTable new.entriesTable
      match d.details.blueprintDataset with
      | some blueprint => s'.deleteEntry blueprint new
      | none => (.ok (), s') := by
  rw [deleteEntry]
  simp only [ht]
  split
  · rename_i h
    rw [hd] at h
    cases h
    rfl
  · rename_i h
    rw [hd] at h
    cases h

theorem loadDirectoryAsTable_cases (s : InMemoryStore) (name : Option String)
    (directory lance : Except Error String) (onDuplicate : IfDuplicateBehavior) (new : NewIds) :
    (s.loadDirectoryAsTable name directory lance onDuplicate new).2 = s ∨
    ∃ fileName entryName tableUrl, directory = .ok fileName ∧
      EntryName.new (name.getD fileName) = .ok entryName ∧ lance = .ok tableUrl ∧
      (s.tableByName entryName = none ∨ onDuplicate = .overwrite) ∧
      (s.loadDirectoryAsTable name directory lance onDuplicate new).2 =
        s.addTableEntry entryName new.entry tableUrl new := by
  unfold loadDirectoryAsTable
  cases directory with
  | error err => exact .inl rfl
  | ok fileName =>
    dsimp only
    split
    · exact .inl rfl
    rename_i entryName hname
    cases lance with
    | error err => exact .inl rfl
    | ok tableUrl =>
      dsimp only
      split
      · exact .inr ⟨fileName, entryName, tableUrl, rfl, hname, rfl, .inl ‹_›, rfl⟩
      · cases onDuplicate with
        | overwrite => exact .inr ⟨fileName, entryName, tableUrl, rfl, hname, rfl, .inr rfl, rfl⟩
        | skip => exact .inl rfl
        | error => exact .inl rfl

namespace Regular

theorem exists_system (h : s.Regular) :
    ∃ e, s.idByName[EntryName.entriesTable]? = some e ∧ s.datasets[e]? = none ∧
      s.nameOf e = some .entriesTable := by
  obtain ⟨e, he⟩ := Option.isSome_iff_exists.mp h.present
  exact ⟨e, he, h.system he, h.index.mp he⟩

theorem deleteTable (h : s.Regular) (ht : s.tables[id]? = some t)
    (hnew : s.idExists new.entriesTable = false) : (s.deleteEntry id new).2.Regular := by
  rw [deleteEntry_table ht]
  have hnamed := h.eraseTable ht
  obtain ⟨hnamed, hpresent⟩ := hnamed.updateEntriesTable new.entriesTable fun _ => by
    rw [idExists_eq_false] at hnew ⊢
    refine ⟨hnew.1, (OrdMap.getElem?_erase ..).trans ?_⟩
    rw [hnew.2, ite_self]
  exact ⟨hnamed, h.paired, hpresent⟩

theorem eraseDataset (h : s.Regular) (hd : s.datasets[id]? = some d) (new : NewIds) :
    ∃ s' : InMemoryStore, s' = { s with
        datasets := s.datasets.erase id
        idByName := s.idByName.erase d.name }.updateEntriesTable new.entriesTable ∧
      s'.Named ∧ s'.idByName[EntryName.entriesTable]?.isSome ∧
      s'.datasets = s.datasets.erase id ∧
      ∀ (k : EntryId) (v : Dataset), s.datasets[k]? = some v → s'.tables[k]? = none := by
  obtain ⟨e, he, hed, hename⟩ := h.exists_system
  have hne : d.name ≠ .entriesTable := by
    intro hn
    have := h.inverse.injective (h.carries.mp (.inl ⟨d, hd, hn⟩)) hename
    rw [this, hed] at hd
    cases hd
  have he' : (s.idByName.erase d.name)[EntryName.entriesTable]? = some e := by
    rw [OrdMap.getElem?_erase, if_neg hne, he]
  obtain ⟨hnamed, hpresent⟩ := (h.toNamed.eraseDataset hd).updateEntriesTable
    new.entriesTable fun hnone => by
      rw [he'] at hnone
      cases hnone
  refine ⟨_, rfl, hnamed, hpresent, rfl, fun k v hk => ?_⟩
  obtain ⟨-, t, -, htables⟩ := updateEntriesTable_present (s := { s with
    datasets := s.datasets.erase id
    idByName := s.idByName.erase d.name }) he' new.entriesTable
  rw [htables, if_neg, h.disjoint hk]
  rintro rfl
  rw [hed] at hk
  cases hk

theorem deleteDataset (h : s.Regular) (hd : s.datasets[id]? = some d)
    (hkind : d.storeKind = .recording) : (s.deleteEntry id new).2.Regular := by
  obtain ⟨b, bd, hb, hbd, hbkind⟩ := h.paired.blueprint hd hkind
  have hidb : id ≠ b := by
    rintro rfl
    rw [hd] at hbd
    cases hbd
    rw [hkind] at hbkind
    cases hbkind
  have hbb : bd.details.blueprintDataset = none := by
    by_contra hne
    obtain ⟨b', hb'⟩ := Option.ne_none_iff_exists'.mp hne
    rw [h.paired.only hbd hb'] at hbkind
    cases hbkind
  obtain ⟨s₁, hs₁, hnamed, hpresent, hdatasets, htables⟩ := h.eraseDataset hd new
  rw [deleteEntry_dataset (h.disjoint hd) hd, hb, ← hs₁]
  have hbd₁ : s₁.datasets[b]? = some bd := by
    rw [hdatasets, OrdMap.getElem?_erase, if_neg hidb, hbd]
  show (s₁.deleteEntry b new).2.Regular
  rw [deleteEntry_dataset (htables b bd hbd) hbd₁, hbb]
  obtain ⟨e, he⟩ := Option.isSome_iff_exists.mp hpresent
  have hne : bd.name ≠ .entriesTable := by
    intro hn
    have hid := hnamed.index.mpr (hnamed.carries.mp (.inl ⟨bd, hbd₁, hn⟩))
    rw [hnamed.system hid] at hbd₁
    cases hbd₁
  obtain ⟨hnamed₂, hpresent₂⟩ := (hnamed.eraseDataset hbd₁).updateEntriesTable
    new.entriesTable fun hnone => by
      rw [OrdMap.getElem?_erase, if_neg hne, he] at hnone
      cases hnone
  refine ⟨hnamed₂, ?_, hpresent₂⟩
  show Paired (s₁.datasets.erase b)
  rw [hdatasets]
  exact h.paired.erase hd hb

theorem deleteEntry (h : s.Regular) (hnew : s.idExists new.entriesTable = false)
    (ho : s.Orderly (.deleteEntry id, new)) : (s.deleteEntry id new).2.Regular := by
  cases ht : s.tables[id]? with
  | some t => exact h.deleteTable ht hnew
  | none =>
    cases hd : s.datasets[id]? with
    | none =>
      rw [deleteEntry_none ht hd]
      exact h
    | some d =>
      refine h.deleteDataset hd ?_
      cases hkind : d.storeKind with
      | recording => rfl
      | blueprint =>
        obtain ⟨owner, o, howner, -, hblue⟩ := h.paired.owned hd hkind
        exact absurd hblue (ho o (OrdMap.mem_values.mpr ⟨owner, howner⟩))

/-- An orderly call keeps the catalog regular. -/
theorem call (h : s.Regular) (hf : s.Fresh c) (ho : s.Orderly c) : (s.call c).Regular := by
  obtain ⟨c, new⟩ := c
  obtain ⟨⟨hne, -, -⟩, ⟨hentry, hblue, hnew⟩, hid⟩ := hf
  cases c with
  | createDataset name id =>
    simp only [Orderly] at ho
    show (s.createDataset name id new).2.Regular
    have hcall : s.createDataset name id new = s.createDataset name (some (id.getD new.entry)) new :=
      rfl
    rw [hcall]
    rcases ho with ho | ⟨hn, hbn, hi⟩
    · rw [InMemoryStore.createDataset, InMemoryStore.createDatasetImpl, Option.getD_some, if_pos ho]
      exact h
    · by_cases hb : EntryName.blueprintFor (id.getD new.entry) ∈ s.idByName
      · rw [InMemoryStore.createDataset, InMemoryStore.createDatasetImpl, Option.getD_some, if_pos hb]
        exact h
      have hidb : id.getD new.entry ≠ new.blueprint := by
        cases id with
        | none => exact hne
        | some id => exact fun h => hid.1 (congrArg some h)
      obtain ⟨s', hs', hreg⟩ := h.createDataset (notMem_iff.mp hn) (notMem_iff.mp hb) hbn hi hblue hidb
      rw [hs']
      exact hreg
  | createTableEntry name lance =>
    show (s.createTableEntry name lance new).2.Regular
    unfold createTableEntry
    split
    · exact h
    · rename_i hn
      cases lance with
      | error err => exact h
      | ok tableUrl => exact h.addTableEntry (notMem_iff.mp hn) hentry tableUrl new
  | loadDirectoryAsTable name directory lance onDuplicate =>
    show (s.loadDirectoryAsTable name directory lance onDuplicate new).2.Regular
    obtain hsame | ⟨fileName, entryName, tableUrl, hdir, hname, hlance, hadd, hcall⟩ :=
      s.loadDirectoryAsTable_cases name directory lance onDuplicate new
    · rw [hsame]
      exact h
    · rw [hcall]
      rcases ho fileName entryName tableUrl hdir hname hlance with hn | ⟨hsome, hdup⟩
      · exact h.addTableEntry (notMem_iff.mp hn) hentry tableUrl new
      · rcases hadd with hnone | hover
        · rw [hnone] at hsome
          cases hsome
        · exact absurd hover hdup
  | renameEntry id name =>
    show (s.renameEntry id name new).2.Regular
    unfold renameEntry
    cases hn : s.idByName[name]? with
    | some existing => exact h
    | none =>
      rcases ho with hmem | hi
      · exact absurd hmem (notMem_iff.mpr hn)
      · obtain ⟨hd, ht⟩ := idExists_eq_false.mp hi
        simp only [hd, ht]
        exact h
  | deleteEntry id => exact h.deleteEntry hnew ho

end Regular

-- ---------------------------------------------------------------------------
-- Calls that break the agreement
-- ---------------------------------------------------------------------------

namespace Regular

theorem createDataset_orphan (h : s.Regular) (hbn : s.idByName[EntryName.blueprintFor id]? = none)
    (hb : s.idExists new.blueprint = false)
    (hbad : name ∈ s.idByName ∨ name = .blueprintFor id ∨ s.idExists id = true) :
    ¬ (s.createDataset name (some id) new).2.Consistent := by
  obtain ⟨s', hcall, hnamed, -, hdatasets, hnames, -⟩ := h.createBlueprint hbn hb
  obtain ⟨hbd, -⟩ := idExists_eq_false.mp hb
  have hrefused : (s'.createDatasetImpl name id .recording
      (some { blueprintDataset := some new.blueprint }) new).2 = s' := by
    unfold InMemoryStore.createDatasetImpl
    split
    · rfl
    rename_i hn
    rw [notMem_iff, hnames] at hn
    split
    · rfl
    rename_i hi
    rcases hbad with hmem | rfl | hex
    · split at hn
      · cases hn
      · exact absurd hmem (notMem_iff.mpr hn)
    · rw [if_pos rfl] at hn
      cases hn
    · -- The id is of an entry that was there, which is still there.
      rw [Bool.not_eq_true, ← nameOf_eq_none] at hi
      have hsome : s.nameOf id ≠ none := by
        intro hnone
        rw [nameOf_eq_none.mp hnone] at hex
        cases hex
      obtain ⟨n, hid⟩ := Option.ne_none_iff_exists'.mp hsome
      have hidx := h.index.mpr hid
      have hidx' : s'.idByName[n]? = some id := by
        rw [hnames, if_neg, hidx]
        rintro rfl
        rw [hbn] at hidx
        cases hidx
      have := hnamed.index.mp hidx'
      rw [hi] at this
      cases this
  rw [hcall, hrefused]
  intro hc
  have hget : s'.datasets[new.blueprint]? = some ⟨new.blueprint, .blueprintFor id, .blueprint, {}⟩ := by
    rw [hdatasets, OrdMap.getElem?_insert, if_pos rfl]
  obtain ⟨owner, o, ho, -, hob⟩ := hc.owned hget rfl
  rw [hdatasets, OrdMap.getElem?_insert] at ho
  split at ho
  · cases ho
    cases hob
  · obtain ⟨bd, hbd', -⟩ := h.paired.blueprint_mem ho hob
    rw [hbd] at hbd'
    cases hbd'

theorem addTableEntry_taken (h : s.Regular) (hn : s.idByName[name]? = some o)
    (hi : s.idExists new.entry = false) (tableUrl : String) :
    ¬ (s.addTableEntry name new.entry tableUrl new).Consistent := by
  intro hc
  obtain ⟨e, he, hed, hename⟩ := h.exists_system
  have hoc := h.carries.mpr (h.index.mp hn)
  have hne : new.entry ≠ o := by
    rintro rfl
    have := nameOf_eq_none.mpr hi
    rw [h.index.mp hn] at this
    cases this
  obtain ⟨t', -, htables⟩ := updateEntriesTable_tables { s with
    idByName := s.idByName.insert name new.entry
    tables := s.tables.insert new.entry
      ⟨new.entry, name, .lanceDataset, .lanceTable tableUrl⟩ } new.entriesTable
  have hsys : systemId { s with
      idByName := s.idByName.insert name new.entry
      tables := s.tables.insert new.entry
        ⟨new.entry, name, .lanceDataset, .lanceTable tableUrl⟩ } new.entriesTable =
      if name = .entriesTable then new.entry else e := by
    rw [systemId, OrdMap.getD_insert, TreeMap.getD_eq_getD_getElem?, he]
    rfl
  rw [hsys] at htables
  have hcarries : (s.addTableEntry name new.entry tableUrl new).Carries o name := by
    obtain ⟨d, hd, hdn⟩ | ⟨t, ht, htn⟩ := hoc
    · exact .inl ⟨d, hd, hdn⟩
    · refine .inr ⟨t, (htables o).trans ?_, htn⟩
      rw [if_neg, OrdMap.getElem?_insert, if_neg hne, ht]
      split
      · exact hne
      · rename_i hname
        rintro rfl
        have := h.index.mp hn
        rw [hename] at this
        cases this
        exact hname rfl
  have hfound := hc.found hcarries
  rw [InMemoryStore.addTableEntry, updateEntriesTable_idByName, hsys] at hfound
  split at hfound
  · rename_i hname
    rw [if_pos hname.symm] at hfound
    exact hne (Option.some.inj hfound)
  · rw [OrdMap.getElem?_insert, if_pos rfl] at hfound
    exact hne (Option.some.inj hfound)

theorem renameEntry_stale (h : s.Regular) (hn : s.idByName[name]? = none)
    (hi : s.idExists id = true) : ¬ (s.renameEntry id name new).2.Consistent := by
  obtain ⟨e, he, hed, hename⟩ := h.exists_system
  have hne := h.ne_entriesTable hn
  have he' : (s.idByName.insert name id)[EntryName.entriesTable]? = some e := by
    rw [OrdMap.getElem?_insert, if_neg hne, he]
  unfold renameEntry
  rw [hn]
  cases hd : s.datasets[id]? with
  | some d =>
    dsimp only
    intro hc
    obtain ⟨hnames, t, -, htables⟩ := updateEntriesTable_present (s := { s with
      datasets := s.datasets.insert id (d.setName name)
      idByName := s.idByName.insert name id }) he' new.entriesTable
    have hold := h.index.mpr (h.carries.mp (.inl ⟨d, hd, rfl⟩))
    have hname : name ≠ d.name := by
      rintro rfl
      rw [hn] at hold
      cases hold
    have hstale := hc.mapped ((hnames d.name).trans
      ((OrdMap.getElem?_insert ..).trans ((if_neg hname).trans hold)))
    obtain ⟨d', hd', hdn⟩ | ⟨t', ht', -⟩ := hstale
    · rw [updateEntriesTable_datasets, OrdMap.getElem?_insert, if_pos rfl] at hd'
      cases hd'
      exact hname hdn
    · rw [htables, h.disjoint hd, if_neg] at ht'
      · cases ht'
      · rintro rfl
        rw [hed] at hd
        cases hd
  | none =>
    cases ht : s.tables[id]? with
    | none =>
      rw [idExists_eq_false.mpr ⟨hd, ht⟩] at hi
      cases hi
    | some t =>
      dsimp only
      intro hc
      obtain ⟨hnames, t', ht', htables⟩ := updateEntriesTable_present (s := { s with
        tables := s.tables.insert id (t.setName name)
        idByName := s.idByName.insert name id }) he' new.entriesTable
      have hold := h.index.mpr (h.carries.mp (.inr ⟨t, ht, rfl⟩))
      have hname : name ≠ t.name := by
        rintro rfl
        rw [hn] at hold
        cases hold
      by_cases hid : e = id
      · -- The system table gets its own name back at once.
        have hnew := hc.mapped ((hnames name).trans ((OrdMap.getElem?_insert ..).trans (if_pos rfl)))
        obtain ⟨d', hd', -⟩ | ⟨t'', ht'', htn⟩ := hnew
        · rw [updateEntriesTable_datasets] at hd'
          exact absurd hd' (by rw [show _ = _ from hd]; nofun)
        · rw [htables, if_pos hid] at ht''
          cases ht''
          exact hne (htn.symm.trans ht')
      · have hstale := hc.mapped ((hnames t.name).trans
          ((OrdMap.getElem?_insert ..).trans ((if_neg hname).trans hold)))
        obtain ⟨d', hd', -⟩ | ⟨t'', ht'', htn⟩ := hstale
        · rw [updateEntriesTable_datasets] at hd'
          exact absurd hd' (by rw [show _ = _ from hd]; nofun)
        · rw [htables, if_neg hid, OrdMap.getElem?_insert, if_pos rfl] at ht''
          cases ht''
          exact hname htn

theorem deleteEntry_widow {owner : EntryId} {o : Dataset} (h : s.Regular)
    (ho : s.datasets[owner]? = some o)
    (hb : o.details.blueprintDataset = some id) : ¬ (s.deleteEntry id new).2.Consistent := by
  obtain ⟨bd, hbd, hbkind⟩ := h.paired.blueprint_mem ho hb
  have hokind := h.paired.only ho hb
  have hbb : bd.details.blueprintDataset = none := by
    by_contra hne
    obtain ⟨b', hb'⟩ := Option.ne_none_iff_exists'.mp hne
    rw [h.paired.only hbd hb'] at hbkind
    cases hbkind
  have hne : id ≠ owner := by
    rintro rfl
    rw [ho] at hbd
    cases hbd
    rw [hokind] at hbkind
    cases hbkind
  rw [deleteEntry_dataset (h.disjoint hbd) hbd, hbb]
  dsimp only
  intro hc
  obtain ⟨b', bd', hb', hbd', -⟩ := hc.blueprint
    ((OrdMap.getElem?_erase ..).trans ((if_neg hne).trans ho)) hokind
  rw [hb] at hb'
  cases hb'
  rw [updateEntriesTable_datasets, OrdMap.getElem?_erase, if_pos rfl] at hbd'
  cases hbd'

/-- A call that leaves the catalog consistent is orderly. -/
theorem orderly (h : s.Regular) (hf : s.Fresh c) (hc : (s.call c).Consistent) : s.Orderly c := by
  obtain ⟨c, new⟩ := c
  obtain ⟨-, ⟨hentry, hblue, -⟩, -⟩ := hf
  cases c with
  | createDataset name id =>
    simp only [Orderly]
    by_contra hno
    obtain ⟨hbn, hbad⟩ := not_or.mp hno
    have hor : name ∈ s.idByName ∨ name = .blueprintFor (id.getD new.entry) ∨
        s.idExists (id.getD new.entry) = true := by
      by_contra hok
      obtain ⟨hn, hne, hi⟩ := not_or.mp hok |>.imp_right not_or.mp
      exact hbad ⟨hn, hne, Bool.not_eq_true _ ▸ hi⟩
    exact h.createDataset_orphan (notMem_iff.mp hbn) hblue hor hc
  | createTableEntry name lance => trivial
  | loadDirectoryAsTable name directory lance onDuplicate =>
    intro fileName entryName tableUrl hdir hname hlance
    by_contra hno
    obtain ⟨hmem, hover⟩ := not_or.mp hno
    obtain ⟨o, ho⟩ := Option.isSome_iff_exists.mp
      (TreeMap.mem_iff_isSome_getElem?.mp (not_not.mp hmem))
    refine h.addTableEntry_taken ho hentry tableUrl ?_
    have hcall : s.call (.loadDirectoryAsTable name directory lance onDuplicate, new) =
        s.addTableEntry entryName new.entry tableUrl new := by
      show (s.loadDirectoryAsTable name directory lance onDuplicate new).2 = _
      unfold loadDirectoryAsTable
      simp only [hdir, hname, hlance]
      cases ht : s.tableByName entryName with
      | none => rfl
      | some t =>
        cases onDuplicate with
        | overwrite => rfl
        | _ => exact absurd ⟨by rw [ht]; rfl, nofun⟩ hover
    exact hcall ▸ hc
  | renameEntry id name =>
    simp only [Orderly]
    by_contra hno
    obtain ⟨hn, hi⟩ := not_or.mp hno
    exact h.renameEntry_stale (notMem_iff.mp hn) (Bool.not_eq_false _ ▸ hi) hc
  | deleteEntry id =>
    intro o ho hb
    obtain ⟨owner, ho⟩ := OrdMap.mem_values.mp ho
    exact h.deleteEntry_widow ho hb hc

end Regular

-- ---------------------------------------------------------------------------
-- Runs
-- ---------------------------------------------------------------------------

namespace Regular

theorem released (h : s.Regular) (hfree : ∀ id, ¬ s.Carries id name) : s.Released name := by
  have hn : s.idByName[name]? = none :=
    h.inverse.unused fun i hi => hfree i (h.carries.mpr hi)
  refine ⟨fun tableUrl new => ?_, fun id new hi => ?_, fun new hf hblue hne => ?_⟩
  · unfold createTableEntry
    rw [if_neg (notMem_iff.mpr hn)]
  · unfold renameEntry
    rw [hn]
    cases hd : s.datasets[id]? with
    | some d => rfl
    | none =>
      cases ht : s.tables[id]? with
      | some t => rfl
      | none =>
        rw [idExists_eq_false.mpr ⟨hd, ht⟩] at hi
        cases hi
  · obtain ⟨⟨hids, -⟩, ⟨hentry, hb, -⟩, -⟩ := hf
    have hbn : s.idByName[EntryName.blueprintFor new.entry]? = none :=
      h.inverse.unused fun i hi => hblue i (h.carries.mpr hi)
    obtain ⟨s', hs', -⟩ := h.createDataset hn hbn hne hentry hb hids
    have hcall : s.createDataset name none new = s.createDataset name (some new.entry) new := rfl
    rw [hcall, hs']

theorem sound (h : s.Regular) : s.Sound := ⟨h.consistent, h.released⟩

/-- Along a run, the catalog is sound after each call just if each call is orderly. -/
theorem sound_iff (h : s.Regular) (hf : Allows InMemoryStore.call Fresh s calls) :
    (∀ n, ((calls.take n).foldl InMemoryStore.call s).Sound) ↔
      Allows InMemoryStore.call Orderly s calls := by
  induction calls generalizing s with
  | nil => exact ⟨fun _ => trivial, fun _ n => by simpa using h.sound⟩
  | cons c rest ih =>
    obtain ⟨hfc, hfrest⟩ := hf
    constructor
    · intro hsound
      have hc := h.orderly hfc (hsound 1).toConsistent
      exact ⟨hc, (ih (h.call hfc hc) hfrest).mp fun n => hsound (n + 1)⟩
    · rintro ⟨hc, hrest⟩ n
      cases n with
      | zero => exact h.sound
      | succ n => exact (ih (h.call hfc hc) hfrest).mpr hrest n

end Regular

/-- From the default store, names and entries agree after every call, and released names
can be used again, just as long as the calls are orderly. -/
theorem names_agree_iff (new : EntryId) (calls : List (Call × NewIds))
    (hf : Allows call Fresh (empty new) calls) :
    (∀ n, ((calls.take n).foldl call (empty new)).Sound) ↔ Allows call Orderly (empty new) calls :=
  (Regular.empty new).sound_iff hf

def nameA : EntryName := ⟨['a'], by decide, by decide⟩

def nameB : EntryName := ⟨['b'], by decide, by decide⟩

/-- A name is released, and used again. -/
def created : List (Call × NewIds) :=
  [(.createDataset nameA none, ⟨1, 2, 3⟩), (.createTableEntry nameB (.ok "b"), ⟨4, 5, 6⟩),
    (.deleteEntry 1, ⟨7, 8, 9⟩), (.createDataset nameA (some 1), ⟨7, 8, 9⟩)]

theorem names_agree_iff_created : ((created.take 4).foldl call (empty 100)).Sound :=
  (names_agree_iff 100 created (by simp only [created, Allows, Fresh]; decide +kernel)).mpr
    (by simp only [created, Allows, Orderly]; decide +kernel) 4

def renamed : List (Call × NewIds) :=
  [(.createDataset nameA none, ⟨1, 2, 3⟩), (.renameEntry 1 nameB, ⟨4, 5, 6⟩)]

/-- Its first name still leads to it, and no dataset can be made under that name. -/
theorem renamed_name_stale :
    Allows call Fresh (empty 100) renamed ∧ ¬ (renamed.foldl call (empty 100)).Sound ∧
      ((renamed.foldl call (empty 100)).createDataset nameA none ⟨7, 8, 9⟩).1 =
        .error (.duplicateEntryNameError nameA) := by
  have hstale : (renamed.foldl call (empty 100)).idByName[nameA]? = some 1 := by decide +kernel
  have hdataset : (renamed.foldl call (empty 100)).datasets[(1 : EntryId)]? =
      some ⟨1, nameB, .recording, { blueprintDataset := some 2 }⟩ := by decide +kernel
  have htable : (renamed.foldl call (empty 100)).tables[(1 : EntryId)]? = none := by decide +kernel
  refine ⟨by simp only [Allows, Fresh, renamed]; decide +kernel, fun h => ?_, by decide +kernel⟩
  obtain ⟨d, hd, hn⟩ | ⟨t, ht, -⟩ := h.mapped hstale
  · cases Option.some.inj (hd.symm.trans hdataset)
    exact absurd hn (by decide)
  · cases ht.symm.trans htable

end DimosViewer.Server.InMemoryStore
