import Mathlib.Algebra.Field.Rat
import Mathlib.Algebra.Group.Defs
import Mathlib.Data.List.Nodup
import Mathlib.Logic.Function.Basic

/-!
# The transform forest

`TransformForest::new` (re_tf): the frames known at one point in time, gathered into trees.
Frames are taken from a hash set, so the order is arbitrary; it is the order of the list here,
from which frames are removed as they are visited. A stack of transforms is a list whose head is
its top. Hash maps are functions, and affine transforms are elements of any monoid.
-/

namespace DimosViewer

variable {F T P : Type*}

-- ---------------------------------------------------------------------------
-- What is looked up for a frame
-- ---------------------------------------------------------------------------

structure ParentFromChildTransform (F T : Type*) where
  parent : F
  transform : T
deriving DecidableEq

/-- A pinhole with its parent; `projection` is the rest of it. -/
structure ResolvedPinholeProjection (F P : Type*) where
  parent : F
  projection : P
deriving DecidableEq

/-- The frames known to the transform cache, and what is known of each at the time of the query:
`implicitParent` is the frame of the parent path, for frames that are derived from an entity. -/
structure KnownFrames (F T P : Type*) where
  frames : List F
  nodup : frames.Nodup
  latestAtTransform : F → Option (ParentFromChildTransform F T)
  latestAtPinhole : F → Option (ResolvedPinholeProjection F P)
  implicitParent : F → Option F

structure ParentChildTransforms (F T P : Type*) where
  parentFrame : Option F
  childFrame : F
  parentFromChild : Option (ParentFromChildTransform F T)
  pinholeProjection : Option (ResolvedPinholeProjection F P)
deriving DecidableEq

/-- A transform gives the parent, else a pinhole does, else the entity hierarchy (by an identity
transform). A pinhole whose parent is not the transform's is only warned about. -/
def KnownFrames.transformsAt [One T] (known : KnownFrames F T P) (childFrame : F) :
    ParentChildTransforms F T P :=
  let parentFromChild := known.latestAtTransform childFrame
  let pinholeProjection := known.latestAtPinhole childFrame
  match parentFromChild with
  | some transform => ⟨some transform.parent, childFrame, parentFromChild, pinholeProjection⟩
  | none =>
    match pinholeProjection with
    | some pinhole => ⟨some pinhole.parent, childFrame, none, pinholeProjection⟩
    | none =>
      match known.implicitParent childFrame with
      | some parent => ⟨some parent, childFrame, some ⟨parent, 1⟩, none⟩
      | none => ⟨none, childFrame, none, none⟩

-- ---------------------------------------------------------------------------
-- The forest
-- ---------------------------------------------------------------------------

structure TreeTransform (F T : Type*) where
  root : F
  targetFromSource : T
deriving DecidableEq

def TreeTransform.newRoot [One T] (root : F) : TreeTransform F T := ⟨root, 1⟩

structure PinholeTreeRoot (F T P : Type*) where
  parentTreeRoot : F
  pinholeProjection : ResolvedPinholeProjection F P
  parentRootFromPinholeRoot : T
deriving DecidableEq

inductive TransformTreeRootInfo (F T P : Type*)
  | transformFrameRoot
  | pinhole (root : PinholeTreeRoot F T P)
deriving DecidableEq

structure TransformForest (F T P : Type*) where
  roots : F → Option (TransformTreeRootInfo F T P) := fun _ => none
  rootFromFrame : F → Option (TreeTransform F T) := fun _ => none

theorem TransformForest.ext {forest forest' : TransformForest F T P}
    (hroots : ∀ f, forest.roots f = forest'.roots f)
    (hframes : ∀ f, forest.rootFromFrame f = forest'.rootFromFrame f) : forest = forest' := by
  cases forest; cases forest'
  simp only [TransformForest.mk.injEq]
  exact ⟨funext hroots, funext hframes⟩

variable [DecidableEq F] [Monoid T]

namespace TransformForest

def insertRoot (forest : TransformForest F T P) (f : F) (info : TransformTreeRootInfo F T P) :
    TransformForest F T P :=
  { forest with roots := Function.update forest.roots f (some info) }

def insertFrame (forest : TransformForest F T P) (f : F) (transform : TreeTransform F T) :
    TransformForest F T P :=
  { forest with rootFromFrame := Function.update forest.rootFromFrame f (some transform) }

/-- The root of a whole stack and the transform its top is resolved against: that of a parent
that is already in the forest, a parent that nothing is known about, or the top itself. -/
def rootOfStack (forest : TransformForest F T P) (top : ParentChildTransforms F T P) :
    TransformForest F T P × F × T :=
  match top.parentFrame with
  | some parentFrame =>
    match forest.rootFromFrame parentFrame with
    | some rootFromFrame => (forest, rootFromFrame.root, rootFromFrame.targetFromSource)
    | none =>
      ((forest.insertRoot parentFrame .transformFrameRoot).insertFrame parentFrame
        (.newRoot parentFrame), parentFrame, 1)
  | none =>
    match top.pinholeProjection with
    | some pinhole =>
      (forest.insertRoot top.childFrame (.pinhole ⟨top.childFrame, pinhole, 1⟩), top.childFrame, 1)
    | none => (forest.insertRoot top.childFrame .transformFrameRoot, top.childFrame, 1)

/-- One turn of the loop that walks the stack backwards: a pinhole starts a tree of its own. -/
def popTransforms : TransformForest F T P × F × T → ParentChildTransforms F T P →
    TransformForest F T P × F × T
  | (forest, rootFrame, rootFromTarget), transforms =>
    let rootFromCurrentFrame :=
      rootFromTarget * (transforms.parentFromChild.map (·.transform)).getD 1
    match transforms.pinholeProjection with
    | some pinhole =>
      ((forest.insertRoot transforms.childFrame
          (.pinhole ⟨rootFrame, pinhole, rootFromCurrentFrame⟩)).insertFrame transforms.childFrame
        ⟨transforms.childFrame, 1⟩, transforms.childFrame, 1)
    | none =>
      (forest.insertFrame transforms.childFrame ⟨rootFrame, rootFromCurrentFrame⟩, rootFrame,
        rootFromCurrentFrame)

def addStackOfTransforms (forest : TransformForest F T P)
    (transformStack : List (ParentChildTransforms F T P)) : TransformForest F T P :=
  match transformStack.head? with
  | none => forest
  | some top => (transformStack.foldl popTransforms (forest.rootOfStack top)).1

end TransformForest

-- ---------------------------------------------------------------------------
-- Walking towards the parent
-- ---------------------------------------------------------------------------

namespace KnownFrames

/-- Pushes frames as long as the next one is unprocessed; what is left unprocessed, and the
stack. -/
def walkTowardsParent (known : KnownFrames F T P) (nextFrame : Option F)
    (unprocessedFrames : List F) (transformStack : List (ParentChildTransforms F T P)) :
    List F × List (ParentChildTransforms F T P) :=
  match nextFrame with
  | none => (unprocessedFrames, transformStack)
  | some currentFrame =>
    if currentFrame ∈ unprocessedFrames then
      known.walkTowardsParent (known.transformsAt currentFrame).parentFrame
        (unprocessedFrames.erase currentFrame) (known.transformsAt currentFrame :: transformStack)
    else (unprocessedFrames, transformStack)
termination_by unprocessedFrames.length
decreasing_by
  have := List.length_pos_of_mem ‹_›
  rw [List.length_erase_of_mem ‹_›]
  omega

theorem length_walkTowardsParent_le (known : KnownFrames F T P) (nextFrame : Option F)
    (unprocessedFrames : List F) (transformStack : List (ParentChildTransforms F T P)) :
    (known.walkTowardsParent nextFrame unprocessedFrames transformStack).1.length ≤
      unprocessedFrames.length := by
  fun_induction walkTowardsParent known nextFrame unprocessedFrames transformStack with
  | case1 => exact Nat.le_refl _
  | case2 unprocessed stack current hmem ih =>
    exact Nat.le_trans ih List.erase_sublist.length_le
  | case3 => exact Nat.le_refl _

theorem length_walkTowardsParent_cons_lt (known : KnownFrames F T P) (currentFrame : F)
    (rest : List F) (transformStack : List (ParentChildTransforms F T P)) :
    (known.walkTowardsParent (some currentFrame) (currentFrame :: rest) transformStack).1.length <
      (currentFrame :: rest).length := by
  rw [walkTowardsParent]
  simp only [List.mem_cons, true_or, if_true, List.erase_cons_head, List.length_cons]
  exact Nat.lt_succ_of_le (length_walkTowardsParent_le known _ _ _)

/-- The frames that are left, into a forest that holds the others. -/
def addFrames (known : KnownFrames F T P) (unprocessedFrames : List F)
    (forest : TransformForest F T P) : TransformForest F T P :=
  match unprocessedFrames with
  | [] => forest
  | currentFrame :: rest =>
    let walked := known.walkTowardsParent (some currentFrame) (currentFrame :: rest) []
    known.addFrames walked.1 (forest.addStackOfTransforms walked.2)
termination_by unprocessedFrames.length
decreasing_by exact length_walkTowardsParent_cons_lt known currentFrame rest []

end KnownFrames

/-- The forest of `TransformForest::new`, with the order in which the frames of the registry are
taken. -/
def TransformForest.new (known : KnownFrames F T P) (order : List F) : TransformForest F T P :=
  known.addFrames order {}

-- ---------------------------------------------------------------------------
-- Debug assertions
-- ---------------------------------------------------------------------------

namespace TransformForest

/-- The root of a frame that is known is registered, and a root is added once. -/
def rootAsserted (forest : TransformForest F T P) (top : ParentChildTransforms F T P) : Bool :=
  match top.parentFrame with
  | some parentFrame =>
    match forest.rootFromFrame parentFrame with
    | some rootFromFrame => (forest.roots rootFromFrame.root).isSome
    | none => (forest.roots parentFrame).isNone
  | none => (forest.roots top.childFrame).isNone

/-- A pinhole is no root yet, and a frame has no entry yet. -/
def popAsserted (forest : TransformForest F T P) (transforms : ParentChildTransforms F T P) : Bool :=
  (transforms.pinholeProjection.isNone || (forest.roots transforms.childFrame).isNone) &&
    (forest.rootFromFrame transforms.childFrame).isNone

def popsAsserted (state : TransformForest F T P × F × T) :
    List (ParentChildTransforms F T P) → Bool
  | [] => true
  | transforms :: transformStack =>
    popAsserted state.1 transforms && popsAsserted (popTransforms state transforms) transformStack

/-- The stack has an element, and all of it is popped. -/
def stackAsserted (forest : TransformForest F T P)
    (transformStack : List (ParentChildTransforms F T P)) : Bool :=
  match transformStack.head? with
  | none => false
  | some top =>
    forest.rootAsserted top && popsAsserted (forest.rootOfStack top) transformStack

end TransformForest

/-- All that is asserted on the way of `addFrames`. The other assertions (a walk starts with an empty
stack and looks up frames of the registry only) hold by what the walk is given. -/
def KnownFrames.framesAsserted (known : KnownFrames F T P) (unprocessedFrames : List F)
    (forest : TransformForest F T P) : Bool :=
  match unprocessedFrames with
  | [] => true
  | currentFrame :: rest =>
    let walked := known.walkTowardsParent (some currentFrame) (currentFrame :: rest) []
    forest.stackAsserted walked.2 &&
      known.framesAsserted walked.1 (forest.addStackOfTransforms walked.2)
termination_by unprocessedFrames.length
decreasing_by exact length_walkTowardsParent_cons_lt known currentFrame rest []

/-- `TransformForest::new` in a build with or without debug assertions. One that fails panics. -/
def TransformForest.build (debugAssertions : Bool) (known : KnownFrames F T P) (order : List F) :
    Option (TransformForest F T P) :=
  if debugAssertions && !known.framesAsserted order {} then none else some (new known order)

end DimosViewer

/-!
## From one frame to another

`TransformForest::transform_from_to`: what is looked up for the target, and one result for each of
the sources, which share a cache of pinhole connections. Affine transforms are elements of any
group; the transform to the image plane of a pinhole is a parameter.
-/

namespace DimosViewer

variable {F T P : Type*} [DecidableEq F] [Group T]

inductive TransformFromToError (F : Type*)
  | unknownTargetFrame (target : F)
  | unknownSourceFrame (source : F)
  | noPathBetweenFrames (target src targetRoot sourceRoot : F)
deriving DecidableEq

def TreeTransform.leftMultiply (self : TreeTransform F T) (targetFromReference : T) :
    TreeTransform F T :=
  ⟨self.root, targetFromReference * self.targetFromSource⟩

structure TargetInfo (F T : Type*) where
  id : F
  root : F
  targetFromRoot : T

structure SourceInfo (F T : Type*) where
  id : F
  root : F
  rootFromSource : TreeTransform F T

def TransformFromToError.noPath (target : TargetInfo F T) (source : SourceInfo F T) :
    TransformFromToError F :=
  .noPathBetweenFrames target.id source.id target.root source.root

/-- `entry(key).or_insert_with(value)`. -/
def orInsertWith (cache : F → Option T) (key : F) (value : T) : T × (F → Option T) :=
  match cache key with
  | some cached => (cached, cache)
  | none => (value, Function.update cache key (some value))

abbrev Connected (F T : Type*) :=
  Except (TransformFromToError F) (TreeTransform F T) × (F → Option T)

variable (pinhole3dFromImagePlane : ResolvedPinholeProjection F P → ℚ → T)
variable (lookupImagePlaneDistance : F → ℚ)

def from2dSourceTo3dTarget (target : TargetInfo F T) (source : SourceInfo F T)
    (pinholeTreeRoot : PinholeTreeRoot F T P) (cache : F → Option T) : Connected F T :=
  if pinholeTreeRoot.parentTreeRoot ≠ target.root then (.error (.noPath target source), cache)
  else
    let pinholeImagePlaneDistance := lookupImagePlaneDistance source.root
    let targetFromImagePlane := orInsertWith cache source.root
      (target.targetFromRoot * pinholeTreeRoot.parentRootFromPinholeRoot *
        pinhole3dFromImagePlane pinholeTreeRoot.pinholeProjection pinholeImagePlaneDistance)
    (.ok (source.rootFromSource.leftMultiply targetFromImagePlane.1), targetFromImagePlane.2)

def from3dSourceTo2dTarget (target : TargetInfo F T) (source : SourceInfo F T)
    (pinholeTreeRoot : PinholeTreeRoot F T P) (cache : F → Option T) : Connected F T :=
  if pinholeTreeRoot.parentTreeRoot ≠ source.root then (.error (.noPath target source), cache)
  else
    let targetFromRoot := orInsertWith cache source.root
      (target.targetFromRoot * (pinhole3dFromImagePlane pinholeTreeRoot.pinholeProjection 500)⁻¹ *
        pinholeTreeRoot.parentRootFromPinholeRoot⁻¹)
    (.ok (source.rootFromSource.leftMultiply targetFromRoot.1), targetFromRoot.2)

namespace TransformForest

variable (forest : TransformForest F T P)

def transformSource (target : TargetInfo F T) (cache : F → Option T) (source : F) :
    Connected F T :=
  match forest.rootFromFrame source with
  | none => (.error (.unknownSourceFrame source), cache)
  | some rootFromSource =>
    let source : SourceInfo F T := ⟨source, rootFromSource.root, rootFromSource⟩
    if source.root = target.root then
      if source.root = target.id then (.ok rootFromSource, cache)
      else (.ok (rootFromSource.leftMultiply target.targetFromRoot), cache)
    else
      match forest.roots target.root, forest.roots source.root with
      | some (.pinhole pinholeTreeRoot), _ =>
        from3dSourceTo2dTarget pinhole3dFromImagePlane target source pinholeTreeRoot cache
      | _, some (.pinhole pinholeTreeRoot) =>
        from2dSourceTo3dTarget pinhole3dFromImagePlane lookupImagePlaneDistance target source
          pinholeTreeRoot cache
      | _, _ => (.error (.noPath target source), cache)

def transformSources (target : TargetInfo F T) (cache : F → Option T) :
    List F → List (F × Except (TransformFromToError F) (TreeTransform F T))
  | [] => []
  | source :: sources =>
    let result := forest.transformSource pinhole3dFromImagePlane lookupImagePlaneDistance target
      cache source
    (source, result.1) :: transformSources target result.2 sources

def transformFromTo (target : F) (sources : List F) :
    List (F × Except (TransformFromToError F) (TreeTransform F T)) :=
  match forest.rootFromFrame target with
  | none => sources.map fun source => (source, .error (.unknownTargetFrame target))
  | some rootFromTarget =>
    forest.transformSources pinhole3dFromImagePlane lookupImagePlaneDistance
      ⟨target, rootFromTarget.root, rootFromTarget.targetFromSource⁻¹⟩ (fun _ => none) sources

end TransformForest

end DimosViewer
