import DimosViewer.EntityDb.SortedTemporalChunks
import Mathlib.Algebra.BigOperators.Group.List.Basic
import Mathlib.Algebra.Order.Group.Nat
import Mathlib.Data.List.Induction

/-!
# The chunks of a subtree are exact

Merging keeps what the records of a chunk come to. By induction over the tree this is what
the entries of the whole subtree come to.
-/

namespace DimosViewer

open ChunkCountInfo Grouping

-- ---------------------------------------------------------------------------
-- Totals of records
-- ---------------------------------------------------------------------------

namespace ChunkCountInfo

def combine (a b : AbsoluteTimeRange × UInt64) : AbsoluteTimeRange × UInt64 :=
  (a.1.union b.1, a.2 + b.2)

instance : Std.Associative combine where
  assoc a b c := by
    simp only [combine, AbsoluteTimeRange.union, min_assoc, max_assoc, UInt64.add_assoc]

instance : Std.Commutative combine where
  comm a b := by
    rw [combine, combine, AbsoluteTimeRange.union, AbsoluteTimeRange.union, min_comm, max_comm,
      UInt64.add_comm]

def value (info : ChunkCountInfo) : AbsoluteTimeRange × UInt64 := (info.timeRange, info.numRows)

def total (chunk : ChunkId) (infos : List ChunkCountInfo) : Option (AbsoluteTimeRange × UInt64) :=
  Rollup.total (·.id) value combine chunk infos

theorem total_append (chunk : ChunkId) (l l' : List ChunkCountInfo) :
    total chunk (l ++ l') = Option.merge combine (total chunk l) (total chunk l') :=
  Rollup.total_append chunk l l'

theorem total_perm (h : l.Perm l') (chunk : ChunkId) : total chunk l = total chunk l' :=
  Rollup.total_perm h chunk

theorem sortById_perm (infos : List ChunkCountInfo) : (sortById infos).Perm infos :=
  List.perm_insertionSort _ _

theorem sortByStart_perm (infos : List ChunkCountInfo) : (sortByStart infos).Perm infos :=
  List.perm_insertionSort _ _

theorem sortById_sorted (infos : List ChunkCountInfo) :
    ((sortById infos).map (·.id)).Pairwise (· ≤ ·) :=
  List.pairwise_map.mpr (List.pairwise_insertionSort _ _)

theorem sortByStart_sorted (infos : List ChunkCountInfo) :
    (sortByStart infos).Pairwise (·.timeRange.min ≤ ·.timeRange.min) :=
  List.pairwise_insertionSort _ _

theorem nodup_ids_mergeDuplicates (infos : List ChunkCountInfo) :
    ((mergeDuplicates infos).map (·.id)).Nodup := by
  have h := Rollup.nodup_keys_mergeNeighbors (fun a b => show (merge a b).id = a.id from rfl)
    (sortById_sorted infos)
  exact ((sortByStart_perm _).map _).nodup_iff.mpr h

theorem total_mergeDuplicates (chunk : ChunkId) (infos : List ChunkCountInfo) :
    total chunk (mergeDuplicates infos) = total chunk infos := by
  rw [mergeDuplicates, total_perm (sortByStart_perm _)]
  have h := Rollup.total_mergeNeighbors (fun a b => show (merge a b).id = a.id from rfl)
    (fun a b => show (merge a b).value = combine a.value b.value from rfl) chunk (sortById infos)
  exact h.trans (total_perm (sortById_perm infos) chunk)

theorem dedup_perm (h : (infos.map (·.id)).Nodup) : (dedup infos).Perm infos := by
  have hsorted : ((sortById infos).map (·.id)).Nodup :=
    ((sortById_perm infos).map _).nodup_iff.mpr h
  rw [dedup, Rollup.mergeNeighbors_of_nodup hsorted]
  exact (sortByStart_perm _).trans (sortById_perm infos)

end ChunkCountInfo

-- ---------------------------------------------------------------------------
-- Records and entries
-- ---------------------------------------------------------------------------

def TemporalEntry.info (e : TemporalEntry) : ChunkCountInfo := ofEntry (e.id, e.entry)

structure IsTotal (l : List TemporalEntry) (b : AbsoluteTimeRange × UInt64) : Prop where
  start : IsLeast {t | ∃ e ∈ l, e.entry.timeRange.min = t} b.1.min
  stop : IsGreatest {t | ∃ e ∈ l, e.entry.timeRange.max = t} b.1.max
  rows : b.2.toNat = (l.map (·.entry.numRows)).sum % 2 ^ 64

theorem isTotal_single (e : TemporalEntry) : IsTotal [e] e.info.value := by
  refine ⟨?_, ?_, ?_⟩
  · simp [TemporalEntry.info, ofEntry, value]
  · simp [TemporalEntry.info, ofEntry, value]
  · simp [TemporalEntry.info, ofEntry, value]

theorem IsTotal.cons (e : TemporalEntry) (h : IsTotal l b) :
    IsTotal (e :: l) (combine e.info.value b) := by
  refine ⟨?_, ?_, ?_⟩
  · have hset : {t | ∃ e' ∈ e :: l, e'.entry.timeRange.min = t} =
        insert e.entry.timeRange.min {t | ∃ e' ∈ l, e'.entry.timeRange.min = t} := by
      ext t
      simp [eq_comm]
    rw [hset]
    exact h.start.insert _
  · have hset : {t | ∃ e' ∈ e :: l, e'.entry.timeRange.max = t} =
        insert e.entry.timeRange.max {t | ∃ e' ∈ l, e'.entry.timeRange.max = t} := by
      ext t
      simp [eq_comm]
    rw [hset]
    exact h.stop.insert _
  · rw [combine, UInt64.toNat_add, h.rows, List.map_cons, List.sum_cons]
    simp [TemporalEntry.info, ofEntry, value]

theorem isTotal_of_total {entries : List TemporalEntry}
    (h : total chunk (entries.map TemporalEntry.info) = some b) :
    IsTotal (entries.filter (·.id = chunk)) b := by
  rw [total, Rollup.total_map] at h
  exact Rollup.total_induction (motive := IsTotal) isTotal_single
    (fun e l b _ hl => hl.cons e) h

theorem aggregates_of_total {entries : List TemporalEntry}
    (hsorted : records.Pairwise (·.timeRange.min ≤ ·.timeRange.min))
    (hunique : (records.map (·.id)).Nodup)
    (h : ∀ chunk, total chunk records = total chunk (entries.map TemporalEntry.info)) :
    Aggregates entries records := by
  have htotal (r : ChunkCountInfo) (hr : r ∈ records) :
      IsTotal (entries.filter (·.id = r.id)) r.value :=
    isTotal_of_total ((h r.id).symm.trans (Rollup.total_of_mem hunique hr))
  refine ⟨hsorted, hunique, fun chunk => ?_, fun r hr => ?_, fun r hr => ?_, fun r hr => ?_⟩
  · have hids : entries.map (·.id) = (entries.map TemporalEntry.info).map (·.id) := by
      rw [List.map_map]
      rfl
    rw [hids, ← not_iff_not]
    exact (Rollup.total_eq_none_iff.symm.trans (by rw [← total, h chunk, total])).trans
      Rollup.total_eq_none_iff
  · simpa [and_assoc, value] using (htotal r hr).start
  · simpa [and_assoc, value] using (htotal r hr).stop
  · exact (htotal r hr).rows

-- ---------------------------------------------------------------------------
-- The records of one entity
-- ---------------------------------------------------------------------------

namespace SortedEntityTemporalChunks

structure Collected (entries : List TemporalEntry) (chunks : SortedEntityTemporalChunks) :
    Prop where
  perEntity : chunks.perEntity = []
  perComponent : ∀ component, (chunks.componentChunks component).Perm
    ((entries.filter (·.component = component)).map TemporalEntry.info)
  sorted : ∀ component,
    (chunks.componentChunks component).Pairwise (·.timeRange.min ≤ ·.timeRange.min)
  all : (chunks.perComponent.flatMap Prod.snd).Perm (entries.map TemporalEntry.info)

theorem collected_nil : Collected [] {} :=
  ⟨rfl, fun _ => .nil, fun _ => .nil, .nil⟩

def componentEntries (timeline : TimelineName) (entity : EntityPath)
    (component : ComponentIdentifier × List (ChunkId × RrdManifestTemporalMapEntry)) :
    List TemporalEntry :=
  component.2.map fun chunk => ⟨entity, timeline, component.1, chunk.1, chunk.2⟩

def ComponentsListedOnce (entries : List TemporalEntry) : Prop :=
  ∀ component, ((entries.filter (·.component = component)).map (·.id)).Nodup

theorem ComponentsListedOnce.of_append (h : ComponentsListedOnce (l ++ l')) :
    ComponentsListedOnce l := by
  intro component
  have hc := h component
  rw [List.filter_append, List.map_append] at hc
  exact hc.of_append_left

theorem Collected.addComponent (h : Collected entries chunks)
    (hn : ComponentsListedOnce (entries ++ componentEntries timeline entity component)) :
    Collected (entries ++ componentEntries timeline entity component)
      (chunks.addComponent component) := by
  obtain ⟨name, listed⟩ := component
  have hinfos : (componentEntries timeline entity (name, listed)).map TemporalEntry.info =
      listed.map ofEntry := by
    rw [componentEntries, List.map_map]
    rfl
  have hfilter (component : ComponentIdentifier) :
      (componentEntries timeline entity (name, listed)).filter (·.component = component) =
        if name = component then componentEntries timeline entity (name, listed) else [] := by
    rw [componentEntries, List.filter_map]
    split <;> simp_all [Function.comp_def]
  -- The list of the component, before duplicates are dropped.
  have hperm : (chunks.componentChunks name ++ listed.map ofEntry).Perm
      (((entries ++ componentEntries timeline entity (name, listed)).filter
        (·.component = name)).map TemporalEntry.info) := by
    rw [List.filter_append, hfilter, if_pos rfl, List.map_append, hinfos]
    exact (h.perComponent name).append_right _
  have hnodup : ((chunks.componentChunks name ++ listed.map ofEntry).map (·.id)).Nodup := by
    refine (hperm.map _).nodup_iff.mpr ?_
    rw [List.map_map]
    exact hn name
  have hlookup (component : ComponentIdentifier) :
      (chunks.addComponent (name, listed)).componentChunks component =
        if component = name then dedup (chunks.componentChunks name ++ listed.map ofEntry)
        else chunks.componentChunks component := by
    rw [componentChunks, SortedEntityTemporalChunks.addComponent, lookup_upsertEntry]
    split <;> rfl
  refine ⟨h.perEntity, fun component => ?_, fun component => ?_, ?_⟩
  · rw [hlookup]
    split
    case isTrue he =>
      subst he
      exact (dedup_perm hnodup).trans hperm
    case isFalse he =>
      rw [List.filter_append, hfilter, if_neg (Ne.symm he), List.append_nil]
      exact h.perComponent component
  · rw [hlookup]
    split
    case isTrue => exact sortByStart_sorted _
    case isFalse => exact h.sorted component
  · rw [List.map_append, hinfos]
    exact (flatMap_upsertEntry_perm_append name _ _ _ (dedup_perm hnodup)).trans
      (h.all.append_right _)

theorem Collected.addComponents
    {components : List (ComponentIdentifier × List (ChunkId × RrdManifestTemporalMapEntry))}
    (h : Collected entries chunks)
    (hn : ComponentsListedOnce (entries ++ components.flatMap (componentEntries timeline entity))) :
    Collected (entries ++ components.flatMap (componentEntries timeline entity))
      (components.foldl (·.addComponent ·) chunks) := by
  induction components generalizing entries chunks with
  | nil => simpa using h
  | cons component components ih =>
    rw [List.flatMap_cons, ← List.append_assoc] at hn ⊢
    exact ih (h.addComponent hn.of_append) hn

end SortedEntityTemporalChunks

open SortedEntityTemporalChunks

-- ---------------------------------------------------------------------------
-- The records of all entities
-- ---------------------------------------------------------------------------

def EntityChunks.chunks (perEntity : EntityChunks) (entity : EntityPath) :
    SortedEntityTemporalChunks :=
  (perEntity.lookup entity).getD {}

def onTimeline (perTimeline : List (TimelineName × EntityChunks)) (timeline : TimelineName) :
    EntityChunks :=
  (perTimeline.lookup timeline).getD []

structure TemporalRow where
  entity : EntityPath
  timeline : TimelineName
  components : List (ComponentIdentifier × List (ChunkId × RrdManifestTemporalMapEntry))

namespace TemporalRow

def entries (row : TemporalRow) : List TemporalEntry :=
  row.components.flatMap (componentEntries row.timeline row.entity)

def add (perTimeline : List (TimelineName × EntityChunks)) (row : TemporalRow) :
    List (TimelineName × EntityChunks) :=
  upsertEntry row.timeline [] (fun sortedPerEntity =>
    upsertEntry row.entity {} (fun entityChunks =>
      row.components.foldl (·.addComponent ·) entityChunks) sortedPerEntity) perTimeline

def rows (map : RrdManifestTemporalMap) : List TemporalRow :=
  map.flatMap fun (entity, timelines) =>
    timelines.map fun (timeline, components) => ⟨entity, timeline.name, components⟩

theorem collect_eq (map : RrdManifestTemporalMap) :
    SortedTemporalChunks.collect map = (rows map).foldl add [] := by
  rw [SortedTemporalChunks.collect, rows, List.foldl_flatMap]
  congr 1
  funext perTimeline entry
  rw [List.foldl_map]
  rfl

theorem entries_eq (map : RrdManifestTemporalMap) : map.entries = (rows map).flatMap entries := by
  rw [RrdManifestTemporalMap.entries, rows, List.flatMap_assoc]
  congr 1
  funext entry
  rw [List.flatMap_map]
  rfl

theorem chunks_add (perTimeline : List (TimelineName × EntityChunks)) (row : TemporalRow)
    (timeline : TimelineName) (entity : EntityPath) :
    (onTimeline (add perTimeline row) timeline).chunks entity =
      if timeline = row.timeline ∧ entity = row.entity then
        row.components.foldl (·.addComponent ·) ((onTimeline perTimeline timeline).chunks entity)
      else (onTimeline perTimeline timeline).chunks entity := by
  rw [onTimeline, add, lookup_upsertEntry]
  by_cases ht : timeline = row.timeline
  · subst ht
    rw [if_pos rfl, Option.getD_some, EntityChunks.chunks, lookup_upsertEntry]
    by_cases he : entity = row.entity
    · subst he
      rw [if_pos rfl, if_pos ⟨rfl, rfl⟩]
      rfl
    · rw [if_neg he, if_neg (fun h => he h.2)]
      rfl
  · rw [if_neg ht, if_neg (fun h => ht h.1)]
    rfl

def ofEntity (entries : List TemporalEntry) (timeline : TimelineName) (entity : EntityPath) :
    List TemporalEntry :=
  entries.filter fun e => e.timeline = timeline ∧ e.entityPath = entity

theorem ofEntity_append (l l' : List TemporalEntry) (timeline : TimelineName)
    (entity : EntityPath) :
    ofEntity (l ++ l') timeline entity =
      ofEntity l timeline entity ++ ofEntity l' timeline entity :=
  List.filter_append ..

theorem ofEntity_entries (row : TemporalRow) (timeline : TimelineName) (entity : EntityPath) :
    ofEntity row.entries timeline entity =
      if timeline = row.timeline ∧ entity = row.entity then row.entries else [] := by
  have hrow : ∀ e ∈ row.entries, e.timeline = row.timeline ∧ e.entityPath = row.entity := by
    intro e he
    obtain ⟨component, -, he⟩ := List.mem_flatMap.mp he
    obtain ⟨chunk, -, rfl⟩ := List.mem_map.mp he
    exact ⟨rfl, rfl⟩
  rw [ofEntity]
  split
  case isTrue h =>
    refine List.filter_eq_self.mpr fun e he => ?_
    simpa [h.1, h.2] using hrow e he
  case isFalse h =>
    refine List.filter_eq_nil_iff.mpr fun e he heq => h ?_
    obtain ⟨ht, hp⟩ := hrow e he
    simp only [ht, hp, decide_eq_true_eq] at heq
    exact ⟨heq.1.symm, heq.2.symm⟩

theorem ofComponent_eq_filter (map : RrdManifestTemporalMap) (timeline : TimelineName)
    (entity : EntityPath) (component : ComponentIdentifier) :
    map.ofComponent timeline entity component =
      (ofEntity map.entries timeline entity).filter (·.component = component) := by
  rw [RrdManifestTemporalMap.ofComponent, ofEntity, List.filter_filter]
  refine List.filter_congr fun e _ => ?_
  by_cases hcomponent : e.component = component <;> simp [hcomponent]

/-- After each row, the records of every entity are made of the entries so far. -/
theorem collected_rows {perTimeline : List (TimelineName × EntityChunks)}
    {seen : List TemporalEntry} {following : List TemporalRow}
    (h : ∀ timeline entity, Collected (ofEntity seen timeline entity)
      ((onTimeline perTimeline timeline).chunks entity))
    (hn : ∀ timeline entity,
      ComponentsListedOnce (ofEntity (seen ++ following.flatMap entries) timeline entity)) :
    ∀ timeline entity, Collected (ofEntity (seen ++ following.flatMap entries) timeline entity)
      ((onTimeline (following.foldl add perTimeline) timeline).chunks entity) := by
  induction following generalizing perTimeline seen with
  | nil => simpa using h
  | cons row following ih =>
    rw [List.flatMap_cons, ← List.append_assoc] at hn ⊢
    refine ih (fun timeline entity => ?_) hn
    have hrow := hn timeline entity
    rw [ofEntity_append] at hrow
    have hrow := hrow.of_append
    rw [ofEntity_append, ofEntity_entries, chunks_add] at *
    split
    case isTrue hkey =>
      rw [if_pos hkey] at hrow
      obtain ⟨rfl, rfl⟩ := hkey
      exact (h _ _).addComponents hrow
    case isFalse =>
      rw [List.append_nil]
      exact h timeline entity

end TemporalRow

theorem collected (map : RrdManifestTemporalMap) (h : map.ListedOnce) (timeline : TimelineName)
    (entity : EntityPath) : Collected (TemporalRow.ofEntity map.entries timeline entity)
      ((onTimeline (SortedTemporalChunks.collect map) timeline).chunks entity) := by
  rw [TemporalRow.collect_eq, TemporalRow.entries_eq]
  have hn (timeline : TimelineName) (entity : EntityPath) : ComponentsListedOnce
      (TemporalRow.ofEntity ([] ++ (TemporalRow.rows map).flatMap TemporalRow.entries) timeline
        entity) := by
    intro component
    rw [List.nil_append, ← TemporalRow.entries_eq, ← TemporalRow.ofComponent_eq_filter]
    exact h timeline entity component
  have hnil (timeline : TimelineName) (entity : EntityPath) :
      Collected (TemporalRow.ofEntity [] timeline entity)
        ((onTimeline [] timeline).chunks entity) := collected_nil
  exact TemporalRow.collected_rows hnil hn timeline entity

-- ---------------------------------------------------------------------------
-- Paths of a tree
-- ---------------------------------------------------------------------------

theorem EntityTree.mem_subtrees (tree : EntityTree) : tree ∈ tree.subtrees := by
  cases tree
  exact List.mem_cons_self

theorem EntityTree.entities_node (path : EntityPath) (children : EntityTrees) :
    (EntityTree.node path children).entities = path :: children.entities := rfl

theorem EntityTrees.entities_cons (part : String) (child : EntityTree) (rest : EntityTrees) :
    (EntityTrees.cons part child rest).entities = child.entities ++ rest.entities :=
  List.map_append

mutual
theorem EntityTree.isPrefix_of_mem {path : EntityPath} {tree : EntityTree}
    (hw : tree.WellFormed path) (h : entity ∈ tree.entities) : path <+: entity := by
  cases tree with
  | node path' children =>
    obtain ⟨rfl, hchildren⟩ := hw
    obtain rfl | h := List.mem_cons.mp h
    · exact List.prefix_rfl
    · obtain ⟨part, -, hpart⟩ := EntityTrees.isPrefix_of_mem hchildren h
      exact (List.prefix_append _ _).trans hpart
theorem EntityTrees.isPrefix_of_mem {path : EntityPath} {trees : EntityTrees}
    (hw : trees.WellFormed path) (h : entity ∈ trees.entities) :
    ∃ part ∈ trees.parts, path ++ [part] <+: entity := by
  cases trees with
  | nil => cases h
  | cons part child rest =>
    obtain ⟨hchild, -, hrest⟩ := hw
    rw [EntityTrees.entities_cons] at h
    obtain h | h := List.mem_append.mp h
    · exact ⟨part, List.mem_cons_self, EntityTree.isPrefix_of_mem hchild h⟩
    · obtain ⟨other, hother, hentity⟩ := EntityTrees.isPrefix_of_mem hrest h
      exact ⟨other, List.mem_cons_of_mem _ hother, hentity⟩
end

theorem part_eq_of_isPrefix {path entity : EntityPath} (h : path ++ [part] <+: entity)
    (h' : path ++ [part'] <+: entity) : part = part' := by
  have heq := List.prefix_of_prefix_length_le h h' (by simp)
  have hlist := heq.eq_of_length (by simp)
  simpa using hlist

theorem not_mem_children {children : EntityTrees} (hw : children.WellFormed path) :
    path ∉ children.entities := by
  intro h
  obtain ⟨part, -, hpart⟩ := EntityTrees.isPrefix_of_mem hw h
  have hlen := hpart.length_le
  simp at hlen

theorem disjoint_siblings {child : EntityTree} {rest : EntityTrees}
    (hw : (EntityTrees.cons part child rest).WellFormed path) :
    List.Disjoint child.entities rest.entities := by
  intro entity hc hr
  obtain ⟨hchild, hpart, hrest⟩ := hw
  obtain ⟨other, hother, hentity⟩ := EntityTrees.isPrefix_of_mem hrest hr
  obtain rfl := part_eq_of_isPrefix (EntityTree.isPrefix_of_mem hchild hc) hentity
  exact hpart hother

mutual
theorem EntityTree.nodup_entities {path : EntityPath} {tree : EntityTree}
    (hw : tree.WellFormed path) :
    tree.entities.Nodup := by
  cases tree with
  | node path' children =>
    obtain ⟨rfl, hchildren⟩ := hw
    exact List.nodup_cons.mpr ⟨not_mem_children hchildren, EntityTrees.nodup_entities hchildren⟩
theorem EntityTrees.nodup_entities {path : EntityPath} {trees : EntityTrees}
    (hw : trees.WellFormed path) :
    trees.entities.Nodup := by
  cases trees with
  | nil => exact .nil
  | cons part child rest =>
    rw [EntityTrees.entities_cons]
    exact List.nodup_append'.mpr ⟨EntityTree.nodup_entities hw.1,
      EntityTrees.nodup_entities hw.2.2, disjoint_siblings hw⟩
end

mutual
theorem EntityTree.subtree_wellFormed {path : EntityPath} {tree : EntityTree}
    (hw : tree.WellFormed path) (h : node ∈ tree.subtrees) : node.WellFormed node.path := by
  cases tree with
  | node path' children =>
    obtain ⟨rfl, hchildren⟩ := hw
    obtain rfl | h := List.mem_cons.mp h
    · exact ⟨rfl, hchildren⟩
    · exact EntityTrees.subtree_wellFormed hchildren h
theorem EntityTrees.subtree_wellFormed {path : EntityPath} {trees : EntityTrees}
    (hw : trees.WellFormed path) (h : node ∈ trees.subtrees) : node.WellFormed node.path := by
  cases trees with
  | nil => cases h
  | cons part child rest =>
    obtain h | h := List.mem_append.mp h
    · exact EntityTree.subtree_wellFormed hw.1 h
    · exact EntityTrees.subtree_wellFormed hw.2.2 h
end

-- ---------------------------------------------------------------------------
-- The walk over the tree
-- ---------------------------------------------------------------------------

namespace EntityChunks

def own (perEntity : EntityChunks) (entity : EntityPath) : List ChunkCountInfo :=
  (perEntity.chunks entity).perComponent.flatMap Prod.snd

structure RolledUp (infos records : List ChunkCountInfo) : Prop where
  sorted : records.Pairwise (·.timeRange.min ≤ ·.timeRange.min)
  unique : (records.map (·.id)).Nodup
  total : ∀ chunk, total chunk records = total chunk infos

/-- After the walk each of these nodes has the records of its subtree, and no other entity
has changed. -/
structure Visited (nodes : List EntityTree) (before after : EntityChunks) : Prop where
  frame : ∀ entity ∉ nodes.map (·.path), after.chunks entity = before.chunks entity
  perComponent : ∀ entity,
    (after.chunks entity).perComponent = (before.chunks entity).perComponent
  rolledUp : ∀ node ∈ nodes,
    RolledUp (node.entities.flatMap before.own) (after.chunks node.path).perEntity

theorem chunks_aggregate (node : EntityTree) (perEntity : EntityChunks) (entity : EntityPath) :
    EntityChunks.chunks (SortedTemporalChunks.aggregate node perEntity) entity =
      if entity = node.path then
        { perEntity.chunks entity with
          perEntity := mergeDuplicates ((perEntity.chunks entity).perEntity ++
            node.children.paths.flatMap (fun path => (perEntity.chunks path).perEntity) ++
            perEntity.own entity) }
      else perEntity.chunks entity := by
  have hchildren : node.children.paths.flatMap (fun path =>
      ((perEntity.lookup path).map (·.perEntity)).getD []) =
        node.children.paths.flatMap fun path => (perEntity.chunks path).perEntity := by
    congr 1
    funext path
    rw [EntityChunks.chunks]
    cases perEntity.lookup path <;> rfl
  rw [EntityChunks.chunks, SortedTemporalChunks.aggregate, hchildren, lookup_upsertEntry]
  split
  case isTrue h => exact h ▸ rfl
  case isFalse => rfl

theorem own_eq_of_perComponent {before after : EntityChunks} (h : ∀ entity,
    (after.chunks entity).perComponent = (before.chunks entity).perComponent) :
    after.own = before.own := by
  funext entity
  rw [own, own, h]

theorem total_children (before after : EntityChunks) (chunk : ChunkId) :
    (trees : EntityTrees) → (∀ node ∈ trees.subtrees,
      RolledUp (node.entities.flatMap before.own) (after.chunks node.path).perEntity) →
    total chunk (trees.paths.flatMap fun path => (after.chunks path).perEntity) =
      total chunk (trees.entities.flatMap before.own)
  | .nil, _ => rfl
  | .cons part child rest, h => by
    have hchild := h child (List.mem_append_left _ child.mem_subtrees)
    have hrest := total_children before after chunk rest fun node hn =>
      h node (List.mem_append_right _ hn)
    rw [EntityTrees.paths, List.flatMap_cons, EntityTrees.entities_cons, List.flatMap_append,
      total_append, total_append, hchild.total, hrest]

mutual
theorem visited_tree {path : EntityPath} {tree : EntityTree} {before : EntityChunks}
    (hw : tree.WellFormed path) (hfresh : ∀ entity ∈ tree.entities,
      (before.chunks entity).perEntity = []) :
    Visited tree.subtrees before (tree.visit SortedTemporalChunks.aggregate before) := by
  cases tree with
  | node path' children =>
    obtain ⟨rfl, hchildren⟩ := hw
    rw [EntityTree.entities_node] at hfresh
    have h := visited_trees hchildren fun entity he => hfresh entity (List.mem_cons_of_mem _ he)
    have hself := h.frame path' (not_mem_children hchildren)
    have hown := own_eq_of_perComponent h.perComponent
    rw [EntityTree.visit]
    refine ⟨fun entity he => ?_, fun entity => ?_, fun node hn => ?_⟩
    · rw [EntityTree.subtrees, List.map_cons, List.mem_cons, not_or] at he
      rw [chunks_aggregate, if_neg he.1, h.frame entity he.2]
    · rw [chunks_aggregate]
      split
      case isTrue => exact h.perComponent entity
      case isFalse => exact h.perComponent entity
    · rw [EntityTree.subtrees] at hn
      rw [chunks_aggregate]
      obtain rfl | hn := List.mem_cons.mp hn
      · rw [if_pos rfl]
        refine ⟨sortByStart_sorted _, nodup_ids_mergeDuplicates _, fun chunk => ?_⟩
        have hnone : ((children.visit SortedTemporalChunks.aggregate before).chunks
            path').perEntity = [] := by
          rw [hself]
          exact hfresh path' List.mem_cons_self
        rw [total_mergeDuplicates, EntityTree.entities_node, List.flatMap_cons, EntityTree.path,
          hnone, List.nil_append, hown, total_perm List.perm_append_comm, total_append,
          total_append]
        exact congrArg _ (total_children before _ chunk children h.rolledUp)
      · have hne : node.path ≠ path' :=
          fun he => not_mem_children hchildren (he ▸ List.mem_map_of_mem hn)
        rw [EntityTree.path, if_neg hne]
        exact h.rolledUp node hn
theorem visited_trees {path : EntityPath} {trees : EntityTrees} {before : EntityChunks}
    (hw : trees.WellFormed path) (hfresh : ∀ entity ∈ trees.entities,
      (before.chunks entity).perEntity = []) :
    Visited trees.subtrees before (trees.visit SortedTemporalChunks.aggregate before) := by
  cases trees with
  | nil => exact ⟨fun _ _ => rfl, fun _ => rfl, fun _ h => nomatch h⟩
  | cons part child rest =>
    have hdisjoint := disjoint_siblings hw
    rw [EntityTrees.entities_cons] at hfresh
    have hchild := visited_tree hw.1 fun entity he => hfresh entity (List.mem_append_left _ he)
    have hfresh' : ∀ entity ∈ rest.entities, (EntityChunks.chunks
        (child.visit SortedTemporalChunks.aggregate before) entity).perEntity = [] := by
      intro entity he
      rw [hchild.frame entity fun hmem => hdisjoint hmem he]
      exact hfresh entity (List.mem_append_right _ he)
    have hrest := visited_trees hw.2.2 hfresh'
    refine ⟨fun entity he => ?_, fun entity => ?_, fun node hn => ?_⟩
    · rw [EntityTrees.subtrees, List.map_append, List.mem_append, not_or] at he
      exact (hrest.frame entity he.2).trans (hchild.frame entity he.1)
    · exact (hrest.perComponent entity).trans (hchild.perComponent entity)
    · obtain hn | hn := List.mem_append.mp hn
      · have hnode : node.path ∉ rest.subtrees.map (·.path) :=
          fun hmem => hdisjoint (List.mem_map_of_mem hn) hmem
        rw [EntityTrees.visit, hrest.frame _ hnode]
        exact hchild.rolledUp node hn
      · rw [← own_eq_of_perComponent hchild.perComponent]
        exact hrest.rolledUp node hn
end

end EntityChunks

-- ---------------------------------------------------------------------------
-- All timelines
-- ---------------------------------------------------------------------------

mutual
/-- Timelines do not see each other. -/
theorem EntityTree.visit_map (f : EntityTree → β → β) :
    (tree : EntityTree) → (l : List (κ × β)) →
    tree.visit (fun node l => l.map fun (k, b) => (k, f node b)) l =
      l.map fun (k, b) => (k, tree.visit f b)
  | .node path children, l => by
    rw [EntityTree.visit, EntityTrees.visit_map f children l, List.map_map]
    rfl
theorem EntityTrees.visit_map (f : EntityTree → β → β) :
    (trees : EntityTrees) → (l : List (κ × β)) →
    trees.visit (fun node l => l.map fun (k, b) => (k, f node b)) l =
      l.map fun (k, b) => (k, trees.visit f b)
  | .nil, l => by
    rw [EntityTrees.visit]
    exact (List.map_id' l).symm
  | .cons part child rest, l => by
    rw [EntityTrees.visit, EntityTree.visit_map f child l, EntityTrees.visit_map f rest,
      List.map_map]
    rfl
end

namespace SortedTemporalChunks

open EntityChunks (RolledUp)

theorem chunks_new (tree : EntityTree) (map : RrdManifestTemporalMap) (timeline : TimelineName)
    (entity : EntityPath) : (new tree map).chunks timeline entity =
      (((collect map).lookup timeline).map
        fun perEntity => (tree.visit aggregate perEntity).chunks entity).getD {} := by
  rw [chunks, get, new, EntityTree.visit_map, OrdMap.lookup_map_snd _ fun _ => tree.visit aggregate]
  cases (collect map).lookup timeline <;> rfl

theorem rolledUp_new {tree : EntityTree} (hw : tree.WellFormed path) {map : RrdManifestTemporalMap}
    (h : map.ListedOnce) (timeline : TimelineName) (hn : node ∈ tree.subtrees) :
    RolledUp (node.entities.flatMap (onTimeline (collect map) timeline).own)
      ((new tree map).chunks timeline node.path).perEntity := by
  rw [chunks_new, onTimeline]
  have hfresh := collected map h timeline
  rw [onTimeline] at hfresh
  cases hlookup : (collect map).lookup timeline with
  | none =>
    have hnil : node.entities.flatMap (EntityChunks.own []) = [] :=
      List.flatMap_eq_nil_iff.mpr fun _ _ => rfl
    rw [Option.getD_none, hnil]
    exact ⟨.nil, .nil, fun _ => rfl⟩
  | some perEntity =>
    rw [hlookup] at hfresh
    exact (EntityChunks.visited_tree hw fun entity _ => (hfresh entity).perEntity).rolledUp node hn

theorem perComponent_new {tree : EntityTree} (hw : tree.WellFormed path)
    {map : RrdManifestTemporalMap} (h : map.ListedOnce) (timeline : TimelineName)
    (entity : EntityPath) : ((new tree map).chunks timeline entity).perComponent =
      ((onTimeline (collect map) timeline).chunks entity).perComponent := by
  rw [chunks_new, onTimeline]
  have hfresh := collected map h timeline
  rw [onTimeline] at hfresh
  cases hlookup : (collect map).lookup timeline with
  | none => rfl
  | some perEntity =>
    rw [hlookup] at hfresh
    exact (EntityChunks.visited_tree hw fun entity _ => (hfresh entity).perEntity).perComponent
      entity

/-- Subtrees and components have exact records if no chunk is listed for a component under
two timelines of one name. -/
theorem new_aggregates (tree : EntityTree) (hw : tree.WellFormed []) (map : RrdManifestTemporalMap)
    (h : map.ListedOnce) (timeline : TimelineName) :
    (∀ node ∈ tree.subtrees, Aggregates (map.ofSubtree timeline node)
      ((new tree map).chunks timeline node.path).perEntity) ∧
    ∀ entity component, Aggregates (map.ofComponent timeline entity component)
      (((new tree map).chunks timeline entity).componentChunks component) := by
  refine ⟨fun node hn => ?_, fun entity component => ?_⟩
  · have hrolled := rolledUp_new hw h timeline hn
    refine aggregates_of_total hrolled.sorted hrolled.unique fun chunk => ?_
    rw [hrolled.total]
    refine total_perm ?_ chunk
    have hown : (node.entities.flatMap (onTimeline (collect map) timeline).own).Perm
        (node.entities.flatMap fun entity =>
          (TemporalRow.ofEntity map.entries timeline entity).map TemporalEntry.info) :=
      .flatMap_left _ fun entity _ => (collected map h timeline entity).all
    refine hown.trans ?_
    rw [← List.map_flatMap]
    refine .map _ ?_
    have hsplit := flatMap_filter_perm TemporalEntry.entityPath
      (map.entries.filter (·.timeline = timeline))
      (EntityTree.nodup_entities (EntityTree.subtree_wellFormed hw hn))
    delta TemporalRow.ofEntity RrdManifestTemporalMap.ofSubtree
    simpa only [List.filter_filter, Bool.decide_and, Bool.and_comm] using hsplit
  · have hcollected := collected map h timeline entity
    have hchunks : ((new tree map).chunks timeline entity).componentChunks component =
        ((onTimeline (collect map) timeline).chunks entity).componentChunks component := by
      rw [SortedEntityTemporalChunks.componentChunks, perComponent_new hw h]
      rfl
    rw [hchunks]
    have hperm := hcollected.perComponent component
    rw [← TemporalRow.ofComponent_eq_filter] at hperm
    refine aggregates_of_total (hcollected.sorted component) ?_ (total_perm hperm)
    refine (hperm.map _).nodup_iff.mpr ?_
    rw [List.map_map]
    exact h timeline entity component

def rootWithChild (part : String) : EntityTree :=
  .node [] (.cons part (.node [part] .nil) .nil)

/-- One chunk with rows for one component under two timelines called "frame". -/
def frameTwice : RrdManifestTemporalMap :=
  [(["a"], [
    (⟨"frame", .sequence⟩, [("c", [(7, ⟨⟨.MIN, .MIN⟩, 3⟩)])]),
    (⟨"frame", .durationNs⟩, [("c", [(7, ⟨⟨.MAX, .MAX⟩, 4⟩)])])])]

/-- The rows of the second timeline get lost. -/
theorem frameTwice_not_aggregated :
    ¬ Aggregates (frameTwice.ofSubtree "frame" (.node ["a"] .nil))
      ((new (rootWithChild "a") frameTwice).chunks "frame" ["a"]).perEntity := by
  have hrecords : ((new (rootWithChild "a") frameTwice).chunks "frame" ["a"]).perEntity =
      [⟨7, ⟨.MIN, .MIN⟩, 3⟩] := by decide
  rw [hrecords]
  intro h
  have hrows := h.rows _ List.mem_cons_self
  revert hrows
  decide

def frameOnce : RrdManifestTemporalMap :=
  [(["a"], [(⟨"frame", .sequence⟩,
    [("c", [(7, ⟨⟨.MIN, .MIN⟩, 3⟩)]), ("d", [(7, ⟨⟨.MAX, .MAX⟩, 4⟩)])])])]

theorem frameOnce_listedOnce : frameOnce.ListedOnce := by
  intro timeline entity component
  have hentries : frameOnce.entries = [⟨["a"], "frame", "c", 7, ⟨⟨.MIN, .MIN⟩, 3⟩⟩,
      ⟨["a"], "frame", "d", 7, ⟨⟨.MAX, .MAX⟩, 4⟩⟩] := rfl
  rw [RrdManifestTemporalMap.ofComponent, hentries]
  by_cases hc : "c" = component
  · subst hc
    rw [List.filter_cons, List.filter_cons_of_neg (by simp), List.filter_nil]
    split <;> simp
  · rw [List.filter_cons_of_neg (by simp [hc]), List.filter_cons, List.filter_nil]
    split <;> simp

theorem frameOnce_aggregated :
    (∀ node ∈ (rootWithChild "a").subtrees, Aggregates (frameOnce.ofSubtree "frame" node)
      ((new (rootWithChild "a") frameOnce).chunks "frame" node.path).perEntity) ∧
    ∀ entity component, Aggregates (frameOnce.ofComponent "frame" entity component)
      (((new (rootWithChild "a") frameOnce).chunks "frame" entity).componentChunks component) :=
  new_aggregates (rootWithChild "a") (by simp [rootWithChild, EntityTree.WellFormed,
    EntityTrees.WellFormed, EntityTrees.parts]) frameOnce frameOnce_listedOnce "frame"

end SortedTemporalChunks

end DimosViewer
