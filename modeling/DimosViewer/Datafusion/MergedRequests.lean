import Mathlib.Algebra.Ring.Nat
import Mathlib.Data.List.Destutter
import Mathlib.Data.List.Sort

/-!
# Fetching chunks by byte ranges

The byte ranges of one file are merged into fewer requests. Offsets and lengths are machine
words. The response to a range request is what the file has of the range.
-/

namespace DimosViewer.Datafusion

/-- Maximum size of a single merged HTTP Range request, 16 MB. -/
def MAX_MERGED_RANGE_SIZE : UInt64 := 16 * 1024 * 1024

structure ChunkByteRange where
  originalRowIndex : Nat
  offset : UInt64
  length : UInt64
deriving DecidableEq, Repr

structure ChunkInMergedRange where
  originalRowIndex : Nat
  offsetInMerged : UInt64
  length : UInt64
deriving DecidableEq, Repr

/-- One request for the bytes from `fileRangeStart` on, and before `fileRangeEnd`. -/
structure MergedRangeRequest where
  url : String
  fileRangeStart : UInt64
  fileRangeEnd : UInt64
  chunks : List ChunkInMergedRange
deriving DecidableEq, Repr

def saturatingSub (a b : UInt64) : UInt64 := if b ≤ a then a - b else 0

def wordMax (a b : UInt64) : UInt64 := if a ≤ b then b else a

-- ---------------------------------------------------------------------------
-- Merging
-- ---------------------------------------------------------------------------

structure Merging where
  mergedRanges : List MergedRangeRequest
  currentStart : UInt64
  currentEnd : UInt64
  chunkInfos : List ChunkInMergedRange

namespace Merging

def start (c : ChunkByteRange) (mergedRanges : List MergedRangeRequest) : Merging where
  mergedRanges
  currentStart := c.offset
  currentEnd := c.offset + c.length
  chunkInfos := [⟨c.originalRowIndex, 0, c.length⟩]

def current (url : String) (m : Merging) : MergedRangeRequest :=
  ⟨url, m.currentStart, m.currentEnd, m.chunkInfos⟩

def finish (url : String) (m : Merging) : List MergedRangeRequest :=
  m.mergedRanges ++ [m.current url]

def step (url : String) (maxGapSize : UInt64) (m : Merging) (c : ChunkByteRange) : Merging :=
  let gapSize := saturatingSub c.offset m.currentEnd
  let newEnd := wordMax (c.offset + c.length) m.currentEnd
  let newMergedSize := newEnd - m.currentStart
  if gapSize ≤ maxGapSize ∧ newMergedSize ≤ MAX_MERGED_RANGE_SIZE then
    { m with
      chunkInfos := m.chunkInfos ++ [⟨c.originalRowIndex, c.offset - m.currentStart, c.length⟩]
      currentEnd := newEnd }
  else start c (m.finish url)

end Merging

/-- By offset, only the first of each. -/
def sortedByOffset (chunks : List ChunkByteRange) : List ChunkByteRange :=
  (chunks.mergeSort fun a b => a.offset ≤ b.offset).destutter fun a b => a.offset ≠ b.offset

def mergeRangesForUrl (url : String) (chunks : List ChunkByteRange) (maxGapSize : UInt64) :
    List MergedRangeRequest :=
  match sortedByOffset chunks with
  | [] => []
  | first :: rest => (rest.foldl (Merging.step url maxGapSize) (.start first [])).finish url

-- ---------------------------------------------------------------------------
-- Fetching
-- ---------------------------------------------------------------------------

def bytesAt (bytes : List UInt8) (start length : Nat) : List UInt8 := (bytes.drop start).take length

def getBytes (bytes : List UInt8) (start stop : Nat) : Option (List UInt8) :=
  if start ≤ stop ∧ stop ≤ bytes.length then some (bytesAt bytes start (stop - start)) else none

namespace MergedRangeRequest

def response (r : MergedRangeRequest) (file : List UInt8) : List UInt8 :=
  let rangeEnd := (r.fileRangeEnd - 1).toNat
  bytesAt file r.fileRangeStart.toNat (rangeEnd + 1 - r.fileRangeStart.toNat)

def chunkBytes (r : MergedRangeRequest) (file : List UInt8) (info : ChunkInMergedRange) :
    Option (List UInt8) :=
  let start := info.offsetInMerged
  getBytes (r.response file) start.toNat (start + info.length).toNat

end MergedRangeRequest

end DimosViewer.Datafusion

/-!
## Merged requests hand every chunk its own bytes

Chunks come in the order of their offsets. Each request covers what its chunks cover,
and no gap between them is wider than asked for.
-/

namespace DimosViewer.Datafusion

def ChunkByteRange.stop (c : ChunkByteRange) : Nat := c.offset.toNat + c.length.toNat

def ChunkByteRange.Fits (c : ChunkByteRange) : Prop := c.stop < 2 ^ 64

instance (c : ChunkByteRange) : Decidable c.Fits := inferInstanceAs (Decidable (_ < _))

theorem ChunkByteRange.Fits.toNat_add {c : ChunkByteRange} (h : c.Fits) :
    (c.offset + c.length).toNat = c.stop := by
  rw [UInt64.toNat_add]
  exact Nat.mod_eq_of_lt h

theorem toNat_wordMax (a b : UInt64) : (wordMax a b).toNat = max a.toNat b.toNat := by
  rw [wordMax]
  split
  case isTrue h => exact (Nat.max_eq_right (UInt64.le_iff_toNat_le.mp h)).symm
  case isFalse h =>
    rw [UInt64.le_iff_toNat_le, not_le] at h
    exact (Nat.max_eq_left h.le).symm

theorem toNat_saturatingSub (a b : UInt64) : (saturatingSub a b).toNat = a.toNat - b.toNat := by
  rw [saturatingSub]
  split
  case isTrue h => exact UInt64.toNat_sub_of_le _ _ h
  case isFalse h =>
    rw [UInt64.le_iff_toNat_le] at h
    exact (Nat.sub_eq_zero_of_le (by omega)).symm

namespace MergedRangeRequest

def rangeOf (r : MergedRangeRequest) (info : ChunkInMergedRange) : ChunkByteRange :=
  ⟨info.originalRowIndex, r.fileRangeStart + info.offsetInMerged, info.length⟩

def ranges (r : MergedRangeRequest) : List ChunkByteRange := r.chunks.map r.rangeOf

def GapsAtMost (maxGapSize : UInt64) (chunks : List ChunkByteRange) : Prop :=
  ∀ before c behind, chunks = before ++ c :: behind → before ≠ [] →
    ∃ prev ∈ before, c.offset.toNat ≤ prev.stop + maxGapSize.toNat

structure Good (url : String) (maxGapSize : UInt64) (r : MergedRangeRequest) : Prop where
  url_eq : r.url = url
  inside : ∀ info ∈ r.chunks,
    (r.rangeOf info).offset.toNat = r.fileRangeStart.toNat + info.offsetInMerged.toNat ∧
      (r.rangeOf info).stop ≤ r.fileRangeEnd.toNat
  reached : ∃ c ∈ r.ranges, c.stop = r.fileRangeEnd.toNat
  nonempty : r.fileRangeStart.toNat < r.fileRangeEnd.toNat
  spans : 1 < r.chunks.length →
    r.fileRangeEnd.toNat - r.fileRangeStart.toNat ≤ MAX_MERGED_RANGE_SIZE.toNat
  gaps : GapsAtMost maxGapSize r.ranges

end MergedRangeRequest

theorem bytesAt_bytesAt (file : List UInt8) {start length offset n : Nat}
    (h : offset + n ≤ length) :
    bytesAt (bytesAt file start length) offset n = bytesAt file (start + offset) n := by
  rw [bytesAt, bytesAt, List.drop_take, List.take_take, List.drop_drop,
    Nat.min_eq_left (by omega)]
  rfl

theorem length_bytesAt (file : List UInt8) (start length : Nat) :
    (bytesAt file start length).length = min length (file.length - start) := by
  rw [bytesAt, List.length_take, List.length_drop]

namespace MergedRangeRequest.Good

variable {url : String} {maxGapSize : UInt64} {r : MergedRangeRequest}

theorem response_eq (h : r.Good url maxGapSize) (file : List UInt8) :
    r.response file =
      bytesAt file r.fileRangeStart.toNat (r.fileRangeEnd.toNat - r.fileRangeStart.toNat) := by
  have hpos := h.nonempty
  have hone : (1 : UInt64) ≤ r.fileRangeEnd := by
    rw [UInt64.le_iff_toNat_le]
    exact Nat.succ_le_of_lt (Nat.zero_lt_of_lt hpos)
  have hlast : (r.fileRangeEnd - 1).toNat = r.fileRangeEnd.toNat - 1 :=
    UInt64.toNat_sub_of_le _ _ hone
  rw [response, hlast, Nat.sub_add_cancel (Nat.succ_le_of_lt (Nat.zero_lt_of_lt hpos))]

theorem slice_eq (h : r.Good url maxGapSize) (hi : info ∈ r.chunks) (file : List UInt8) :
    bytesAt (r.response file) info.offsetInMerged.toNat info.length.toNat =
      bytesAt file (r.rangeOf info).offset.toNat info.length.toNat := by
  obtain ⟨hoffset, hstop⟩ := h.inside info hi
  have hle : info.offsetInMerged.toNat + info.length.toNat ≤
      r.fileRangeEnd.toNat - r.fileRangeStart.toNat := by
    rw [ChunkByteRange.stop, hoffset] at hstop
    have : (r.rangeOf info).length.toNat = info.length.toNat := rfl
    omega
  rw [h.response_eq, bytesAt_bytesAt file hle, hoffset]

theorem chunkBytes_eq (h : r.Good url maxGapSize) (hi : info ∈ r.chunks) (file : List UInt8)
    (hfile : (r.rangeOf info).stop ≤ file.length) :
    r.chunkBytes file info =
      some (bytesAt file (r.rangeOf info).offset.toNat info.length.toNat) := by
  obtain ⟨hoffset, hstop⟩ := h.inside info hi
  rw [ChunkByteRange.stop, hoffset] at hstop hfile
  have hlength : (r.rangeOf info).length = info.length := rfl
  rw [hlength] at hstop hfile
  have hend := r.fileRangeEnd.toNat_lt
  have hsum : (info.offsetInMerged + info.length).toNat =
      info.offsetInMerged.toNat + info.length.toNat := by
    rw [UInt64.toNat_add]
    exact Nat.mod_eq_of_lt (by omega)
  have hin : info.offsetInMerged.toNat ≤ info.offsetInMerged.toNat + info.length.toNat ∧
      info.offsetInMerged.toNat + info.length.toNat ≤ (r.response file).length := by
    rw [h.response_eq, length_bytesAt]
    omega
  rw [chunkBytes, getBytes, hsum, if_pos hin, Nat.add_sub_cancel_left, h.slice_eq hi]

end MergedRangeRequest.Good

-- ---------------------------------------------------------------------------
-- The loop
-- ---------------------------------------------------------------------------

namespace MergedRangeRequest

theorem gapsAtMost_singleton (maxGapSize : UInt64) (c : ChunkByteRange) :
    GapsAtMost maxGapSize [c] := by
  rintro (_ | ⟨a, before⟩) c' behind he hne
  · exact absurd rfl hne
  · cases before <;> cases he

theorem GapsAtMost.concat {chunks : List ChunkByteRange} (h : GapsAtMost maxGapSize chunks)
    (hprev : prev ∈ chunks) (hle : c.offset.toNat ≤ prev.stop + maxGapSize.toNat) :
    GapsAtMost maxGapSize (chunks ++ [c]) := by
  intro before c' behind he hne
  obtain rfl | ⟨behind, last, rfl⟩ := behind.eq_nil_or_concat'
  · obtain ⟨rfl, hc⟩ := List.append_inj' he rfl
    obtain rfl := List.singleton_inj.mp hc
    exact ⟨prev, hprev, hle⟩
  · rw [← List.cons_append, ← List.append_assoc] at he
    exact h before c' behind (List.append_inj' he rfl).1 hne

end MergedRangeRequest

namespace Merging

variable {url : String} {maxGapSize : UInt64} {m : Merging} {c : ChunkByteRange}

structure Keeps (url : String) (maxGapSize : UInt64) (m : Merging)
    (done todo : List ChunkByteRange) : Prop where
  merged : ∀ r ∈ m.mergedRanges, r.Good url maxGapSize
  current : (m.current url).Good url maxGapSize
  taken : (m.finish url).flatMap (·.ranges) = done
  left : ∀ c ∈ todo, m.currentStart ≤ c.offset

theorem good_start (hfits : c.Fits) (hpos : 0 < c.length.toNat) (requests) :
    ((start c requests).current url).Good url maxGapSize := by
  have hstop : ((start c requests).current url).fileRangeEnd.toNat = c.stop := hfits.toNat_add
  have hranges : ((start c requests).current url).ranges = [c] := by
    show [(⟨c.originalRowIndex, c.offset + 0, c.length⟩ : ChunkByteRange)] = [c]
    rw [UInt64.add_zero]
  refine ⟨rfl, ?_, ⟨c, hranges ▸ List.mem_singleton_self c, hstop.symm⟩, ?_, ?_, ?_⟩
  · intro info hi
    obtain rfl := List.mem_singleton.mp hi
    have hrange : ((start c requests).current url).rangeOf ⟨c.originalRowIndex, 0, c.length⟩ = c :=
      List.singleton_inj.mp hranges
    rw [hrange, hstop]
    exact ⟨rfl, le_rfl⟩
  · rw [hstop, ChunkByteRange.stop]
    exact Nat.lt_add_of_pos_right hpos
  · intro h
    exact absurd h (lt_irrefl 1)
  · rw [hranges]
    exact MergedRangeRequest.gapsAtMost_singleton _ c

theorem flatMap_finish_start (requests) :
    ((start c requests).finish url).flatMap (·.ranges) = requests.flatMap (·.ranges) ++ [c] := by
  rw [finish, List.flatMap_append, List.flatMap_singleton]
  show _ ++ [(⟨c.originalRowIndex, c.offset + 0, c.length⟩ : ChunkByteRange)] = _
  rw [UInt64.add_zero]
  rfl

theorem ranges_push (info : ChunkInMergedRange) (stop : UInt64) :
    (current url { m with chunkInfos := m.chunkInfos ++ [info], currentEnd := stop }).ranges =
      (m.current url).ranges ++ [(m.current url).rangeOf info] :=
  List.map_append

theorem Keeps.step (h : Keeps url maxGapSize m done (c :: todo)) (hfits : c.Fits)
    (hpos : 0 < c.length.toNat) (hsorted : ∀ d ∈ todo, c.offset ≤ d.offset) :
    Keeps url maxGapSize (m.step url maxGapSize c) (done ++ [c]) todo := by
  obtain ⟨hstart, hleft⟩ := List.forall_mem_cons.mp h.left
  rw [Merging.step]
  split
  case isTrue hmerge =>
    obtain ⟨hgap, hsize⟩ := hmerge
    have hoffset : m.currentStart + (c.offset - m.currentStart) = c.offset := by
      rw [UInt64.add_comm, UInt64.sub_add_cancel]
    have hrange : (m.current url).rangeOf ⟨c.originalRowIndex, c.offset - m.currentStart, c.length⟩
        = c := by
      show (⟨_, m.currentStart + (c.offset - m.currentStart), _⟩ : ChunkByteRange) = c
      rw [hoffset]
    have hend : (wordMax (c.offset + c.length) m.currentEnd).toNat = max c.stop m.currentEnd.toNat := by
      rw [toNat_wordMax, hfits.toNat_add]
    have hle : m.currentEnd.toNat ≤ (wordMax (c.offset + c.length) m.currentEnd).toNat := by
      rw [hend]
      exact le_max_right _ _
    refine ⟨h.merged, ⟨rfl, ?_, ?_, h.current.nonempty.trans_le hle, ?_, ?_⟩, ?_, hleft⟩
    · intro info hi
      rcases List.mem_append.mp hi with hi | hi
      · exact (h.current.inside info hi).imp_right (·.trans hle)
      · obtain rfl := List.mem_singleton.mp hi
        refine ⟨?_, ?_⟩
        · show (m.currentStart + (c.offset - m.currentStart)).toNat = _
          rw [hoffset]
          show _ = m.currentStart.toNat + (c.offset - m.currentStart).toNat
          rw [UInt64.toNat_sub_of_le _ _ hstart]
          exact (Nat.add_sub_cancel' (UInt64.le_iff_toNat_le.mp hstart)).symm
        · exact (congrArg ChunkByteRange.stop hrange).le.trans (hend ▸ le_max_left _ _)
    · rw [ranges_push, hrange]
      obtain ⟨d, hd, hreached⟩ := h.current.reached
      rcases Nat.le_total c.stop m.currentEnd.toNat with hc | hc
      · exact ⟨d, List.mem_append_left _ hd, by
          rw [hreached]
          exact (hend.trans (Nat.max_eq_right hc)).symm⟩
      · exact ⟨c, List.mem_append_right _ (List.mem_singleton_self c),
          (hend.trans (Nat.max_eq_left hc)).symm⟩
    · intro _
      have hsub := UInt64.toNat_sub_of_le (wordMax (c.offset + c.length) m.currentEnd) m.currentStart
        (UInt64.le_iff_toNat_le.mpr (h.current.nonempty.le.trans hle))
      rw [UInt64.le_iff_toNat_le, hsub] at hsize
      exact hsize
    · rw [ranges_push, hrange]
      obtain ⟨d, hd, hreached⟩ := h.current.reached
      refine h.current.gaps.concat hd ?_
      rw [UInt64.le_iff_toNat_le, toNat_saturatingSub] at hgap
      rw [hreached]
      exact Nat.sub_le_iff_le_add'.mp hgap
    · rw [← h.taken, finish, finish, List.flatMap_append, List.flatMap_append,
        List.flatMap_singleton, List.flatMap_singleton, List.append_assoc, ranges_push, hrange]
  case isFalse =>
    refine ⟨?_, good_start hfits hpos _, ?_, hsorted⟩
    · intro r hr
      rcases List.mem_append.mp hr with hr | hr
      · exact h.merged r hr
      · obtain rfl := List.mem_singleton.mp hr
        exact h.current
    · rw [flatMap_finish_start, h.taken]

theorem Keeps.run (h : Keeps url maxGapSize m done todo) (hfits : ∀ c ∈ todo, c.Fits)
    (hpos : ∀ c ∈ todo, 0 < c.length.toNat)
    (hsorted : todo.Pairwise fun a b => a.offset ≤ b.offset) :
    Keeps url maxGapSize (todo.foldl (Merging.step url maxGapSize) m) (done ++ todo) [] := by
  induction todo generalizing m done with
  | nil =>
    rw [List.append_nil]
    exact h
  | cons c todo ih =>
    obtain ⟨hc, hleft⟩ := List.forall_mem_cons.mp hfits
    obtain ⟨hpc, hpl⟩ := List.forall_mem_cons.mp hpos
    obtain ⟨hs, hsorted⟩ := List.pairwise_cons.mp hsorted
    have hrun := ih (h.step hc hpc hs) hleft hpl hsorted
    rw [List.append_assoc] at hrun
    exact hrun

end Merging

-- ---------------------------------------------------------------------------
-- All chunks
-- ---------------------------------------------------------------------------

theorem pairwise_mergeSort_offset (chunks : List ChunkByteRange) :
    (chunks.mergeSort fun a b => a.offset ≤ b.offset).Pairwise fun a b => a.offset ≤ b.offset := by
  have htrans (a b c : ChunkByteRange) (hab : decide (a.offset ≤ b.offset) = true)
      (hbc : decide (b.offset ≤ c.offset) = true) : decide (a.offset ≤ c.offset) = true :=
    decide_eq_true (UInt64.le_trans (of_decide_eq_true hab) (of_decide_eq_true hbc))
  have htotal (a b : ChunkByteRange) :
      (decide (a.offset ≤ b.offset) || decide (b.offset ≤ a.offset)) = true := by
    simpa using UInt64.le_total a.offset b.offset
  exact (List.pairwise_mergeSort htrans htotal chunks).imp (by simp)

theorem sortedByOffset_eq {chunks : List ChunkByteRange}
    (hd : chunks.Pairwise fun a b => a.offset ≠ b.offset) :
    sortedByOffset chunks = chunks.mergeSort fun a b => a.offset ≤ b.offset := by
  refine List.destutter_of_isChain _ _ (List.Pairwise.isChain ?_)
  exact ((List.mergeSort_perm chunks _).pairwise_iff fun h => h.symm).mpr hd

structure HandsOut (url : String) (chunks : List ChunkByteRange) (maxGapSize : UInt64)
    (requests : List MergedRangeRequest) : Prop where
  assigned : (requests.flatMap (·.ranges)).Perm chunks
  slices : ∀ r ∈ requests, ∀ info ∈ r.chunks, ∀ file,
    bytesAt (r.response file) info.offsetInMerged.toNat info.length.toNat =
      bytesAt file (r.rangeOf info).offset.toNat info.length.toNat
  found : ∀ r ∈ requests, ∀ info ∈ r.chunks, ∀ file, (r.rangeOf info).stop ≤ file.length →
    r.chunkBytes file info =
      some (bytesAt file (r.rangeOf info).offset.toNat info.length.toNat)
  urls : ∀ r ∈ requests, r.url = url
  spans : ∀ r ∈ requests, 1 < r.chunks.length →
    r.fileRangeEnd.toNat - r.fileRangeStart.toNat ≤ MAX_MERGED_RANGE_SIZE.toNat
  gaps : ∀ r ∈ requests, MergedRangeRequest.GapsAtMost maxGapSize r.ranges

theorem mergeRangesForUrl_handsOut (url : String) (chunks : List ChunkByteRange)
    (maxGapSize : UInt64) (hd : chunks.Pairwise fun a b => a.offset ≠ b.offset)
    (hpos : ∀ c ∈ chunks, 0 < c.length.toNat) (hfits : ∀ c ∈ chunks, c.Fits) :
    HandsOut url chunks maxGapSize (mergeRangesForUrl url chunks maxGapSize) := by
  have hperm := List.mergeSort_perm chunks fun a b => a.offset ≤ b.offset
  have hsorted := pairwise_mergeSort_offset chunks
  rw [mergeRangesForUrl, sortedByOffset_eq hd]
  cases he : chunks.mergeSort fun a b => a.offset ≤ b.offset with
  | nil =>
    rw [he] at hperm
    exact ⟨hperm, nofun, nofun, nofun, nofun, nofun⟩
  | cons first rest =>
    rw [he] at hperm hsorted
    obtain ⟨hfirst, hrest⟩ := List.forall_mem_cons.mp fun c hc => hfits c (hperm.mem_iff.mp hc)
    obtain ⟨hpf, hpr⟩ := List.forall_mem_cons.mp fun c hc => hpos c (hperm.mem_iff.mp hc)
    obtain ⟨hs, hsorted⟩ := List.pairwise_cons.mp hsorted
    have hinit : Merging.Keeps url maxGapSize (.start first []) [first] rest :=
      ⟨nofun, Merging.good_start hfirst hpf [], Merging.flatMap_finish_start [], hs⟩
    have hrun := hinit.run hrest hpr hsorted
    have hgood : ∀ r ∈ (rest.foldl (Merging.step url maxGapSize) (.start first [])).finish url,
        r.Good url maxGapSize := by
      intro r hr
      rcases List.mem_append.mp hr with hr | hr
      · exact hrun.merged r hr
      · obtain rfl := List.mem_singleton.mp hr
        exact hrun.current
    exact ⟨hrun.taken ▸ hperm, fun r hr info hi => (hgood r hr).slice_eq hi,
      fun r hr info hi => (hgood r hr).chunkBytes_eq hi, fun r hr => (hgood r hr).url_eq,
      fun r hr => (hgood r hr).spans, fun r hr => (hgood r hr).gaps⟩

/-- A nested chunk, one across a gap that is narrow enough, and one beyond. -/
theorem mergeRangesForUrl_handsOut_nested :
    HandsOut "u" [⟨0, 100, 50⟩, ⟨1, 110, 5⟩, ⟨2, 160, 10⟩, ⟨3, 400, 1⟩] 10
      (mergeRangesForUrl "u" [⟨0, 100, 50⟩, ⟨1, 110, 5⟩, ⟨2, 160, 10⟩, ⟨3, 400, 1⟩] 10) :=
  mergeRangesForUrl_handsOut "u" _ 10 (by decide) (by decide) (by decide)

end DimosViewer.Datafusion
