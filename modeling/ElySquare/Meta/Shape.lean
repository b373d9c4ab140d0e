import ElySquare.Meta.Heap

set_option autoImplicit false

namespace ElySquare

abbrev Atom := BitVec 32

namespace accessFlags

def readonly : BitVec 16 := 0x01#16
def hidden : BitVec 16 := 0x02#16
def isGetter : BitVec 16 := 0x04#16
def isSetter : BitVec 16 := 0x08#16

end accessFlags

namespace shapeFlags

def isMarkedAlive : BitVec 16 := 0x01#16
def hasAccessors : BitVec 16 := 0x02#16
def isFrozen : BitVec 16 := 0x04#16
def isHashTableMode : BitVec 16 := 0x08#16

end shapeFlags

structure PropertyDescriptor where
  nameAtom : Atom
  offsetIndex : BitVec 16
  attributes : BitVec 16
deriving DecidableEq, Repr

structure TransitionEntry where
  targetShape : Option Nat
  propertyAtom : Atom
deriving DecidableEq, Repr

/-- The field `arena` is left out: the world has one meta arena. -/
@[ext] structure Shape where
  parentShape : Option Nat
  nextShapeInArena : Option Nat
  prevShapeInArena : Option Nat
  shapeFlags : BitVec 16
  propertyCount : Nat
  propArray : Option Nat
  transitionCount : Nat
  transitionCapacity : Nat
  transitionTable : Option Nat
deriving DecidableEq, Repr

inductive ShapeObject
  | shape (shape : Shape)
  | properties (descriptors : List PropertyDescriptor)
  | transitions (entries : List TransitionEntry)
deriving DecidableEq, Repr

abbrev ShapeWorld := World (Heap ShapeObject)

namespace Shape

open MetaArena (metallocOr)

def sizeofShape : Nat := 64

def sizeofTransitionEntry : Nat := 16

def sizeofPropertyDescriptor : Nat := 8

def uint16Max : Nat := 65535

def invalidIndex : BitVec 16 := 65535#16

def zero : Shape := ⟨none, none, none, 0#16, 0, none, 0, 0, none⟩

def zeroProperty : PropertyDescriptor := ⟨0#32, 0#16, 0#16⟩

def zeroEntry : TransitionEntry := ⟨none, 0#32⟩

def read (w : ShapeWorld) (p : Nat) : Result Shape :=
  match w.memory p with
  | some (.object (.shape shape)) => .ok shape
  | _ => .error (.invalidAccess p)

def readProperties (w : ShapeWorld) (p : Option Nat) : Result (List PropertyDescriptor) :=
  match p with
  | none => .error (.invalidAccess 0)
  | some p =>
    match w.memory p with
    | some (.object (.properties descriptors)) => .ok descriptors
    | _ => .error (.invalidAccess p)

def readTransitions (w : ShapeWorld) (p : Option Nat) : Result (List TransitionEntry) :=
  match p with
  | none => .error (.invalidAccess 0)
  | some p =>
    match w.memory p with
    | some (.object (.transitions entries)) => .ok entries
    | _ => .error (.invalidAccess p)

def modify (w : ShapeWorld) (p : Nat) (change : Shape → Shape) : Result ShapeWorld := do
  let shape ← read w p
  .ok (store w p (.shape (change shape)))

def elements {Element : Type} (array : List Element) (count : Nat) : Result (List Element) :=
  if count ≤ array.length then .ok (array.take count) else .error (.invalidAccess 0)

def writeProperty (w : ShapeWorld) (p : Option Nat) (i : Nat) (property : PropertyDescriptor) :
    Result ShapeWorld := do
  let descriptors ← readProperties w p
  if i < descriptors.length then
    .ok (store w (p.getD 0) (.properties (descriptors.set i property)))
  else .error (.invalidAccess (p.getD 0))

def writeTransition (w : ShapeWorld) (p : Option Nat) (i : Nat) (entry : TransitionEntry) :
    Result ShapeWorld := do
  let entries ← readTransitions w p
  if i < entries.length then .ok (store w (p.getD 0) (.transitions (entries.set i entry)))
  else .error (.invalidAccess (p.getD 0))

def setLastAllocatedShape (w : ShapeWorld) (last : Option Nat) : ShapeWorld :=
  { w with metaArena := { w.metaArena with lastAllocatedShape := last } }

def getNextTransitionCapacity (currentCapacity : Nat) : Nat :=
  if currentCapacity = 0 then 2
  else if currentCapacity < 32 then currentCapacity * 2
  else currentCapacity + 4

def createRootShape (w : ShapeWorld) : Result (Nat × ShapeWorld) := do
  let (ptr, w) ← metallocOr "Error while allocating the memory for root shape" w sizeofShape 8
  let w := store w ptr (.shape { zero with shapeFlags := 0x01#16 })
  .ok (ptr, setLastAllocatedShape w (some ptr))

def getShapeFlags (parent : Shape) (atomFlags : BitVec 16) : BitVec 16 :=
  if atomFlags &&& accessFlags.isGetter ≠ 0#16 ∨ atomFlags &&& accessFlags.isSetter ≠ 0#16 ∨
      parent.shapeFlags &&& shapeFlags.hasAccessors ≠ 0#16 then
    shapeFlags.hasAccessors
  else 0#16

def transiteTo (shapeTo : Nat) (propertyAtom : Atom) : TransitionEntry := ⟨some shapeTo, propertyAtom⟩

def usedProperties (w : ShapeWorld) (shape : Shape) : Result (List PropertyDescriptor) :=
  if shape.propertyCount = 0 then .ok []
  else do elements (← readProperties w shape.propArray) shape.propertyCount

def makeShape (w : ShapeWorld) (parent : Nat) (atomFlags : BitVec 16) : Result (Nat × ShapeWorld) := do
  let (child, w) ← metallocOr "Failed to get memory for new Shape" w sizeofShape 8
  let w := store w child (.shape { zero with parentShape := some parent })
  match w.metaArena.lastAllocatedShape with
  | none => .error (.panic .internalError "makeShape called before createRootShape")
  | some last => do
    let w ← modify w last fun shape => { shape with nextShapeInArena := some child }
    let w ← modify w child fun shape => { shape with prevShapeInArena := some last }
    let parentShape ← read w parent
    let propertyCount := (parentShape.propertyCount + 1) % 2 ^ 16
    let w ← modify w child fun shape => { shape with
      shapeFlags := getShapeFlags parentShape atomFlags
      propertyCount := propertyCount }
    let (propArray, w) ← metallocOr "Failed to get memory for new Shape properties" w
      (sizeofPropertyDescriptor * propertyCount) 4
    let copied ← usedProperties w parentShape
    let w := store w propArray
      (.properties (copied ++ List.replicate (propertyCount - copied.length) zeroProperty))
    let w ← modify w child fun shape => { shape with propArray := some propArray }
    .ok (child, setLastAllocatedShape w (some child))

-- The flags of a property, as makePropertyInShape and transitionShape both compute them.
def attributesOf (isReadonly isHidden isGetter isSetter : Bool) : BitVec 16 :=
  (if isReadonly then accessFlags.readonly else 0#16) |||
    (if isHidden then accessFlags.hidden else 0#16) |||
    (if isGetter then accessFlags.isGetter else 0#16) |||
    (if isSetter then accessFlags.isSetter else 0#16)

-- The name 0 is refused with a warning.
def makePropertyInShape (nameAtom : Atom) (offset : BitVec 16)
    (isReadonly isHidden isGetter isSetter : Bool) : PropertyDescriptor :=
  if nameAtom = 0#32 then zeroProperty
  else ⟨nameAtom, offset, attributesOf isReadonly isHidden isGetter isSetter⟩

-- The first part of createTransition: room for one more entry in the table of `currentShape`.
def growTransitionTable (w : ShapeWorld) (currentShape : Nat) : Result ShapeWorld := do
  let shape ← read w currentShape
  if shape.transitionCount + 1 ≤ shape.transitionCapacity then .ok w
  else if shape.transitionCount = 0 then do
    let newCapacity := 2
    let (ptr, w) ← metallocOr "Failed to get memory for Shape transition" w
      (sizeofTransitionEntry * newCapacity) 8
    let w := store w ptr (.transitions (List.replicate newCapacity zeroEntry))
    modify w currentShape fun shape => { shape with
      transitionTable := some ptr
      transitionCapacity := newCapacity }
  else do
    let newCapacity := getNextTransitionCapacity shape.transitionCapacity
    if newCapacity > uint16Max then
      .error (.outOfMemory "Shape transition table too large (> UINT16_MAX entries)")
    else do
      let (ptr, w) ← metallocOr "Failed to get memory for Shape transition" w
        (sizeofTransitionEntry * newCapacity) 8
      let copied ← elements (← readTransitions w shape.transitionTable) shape.transitionCount
      let w := store w ptr
        (.transitions (copied ++ List.replicate (newCapacity - copied.length) zeroEntry))
      let w ← modify w currentShape fun shape => { shape with transitionTable := some ptr }
      let w := MetaArena.metarecycle w (shape.transitionTable.getD 0)
        (sizeofTransitionEntry * shape.transitionCapacity)
      if shape.transitionCount = uint16Max then
        .error (.outOfMemory "Shape transition table is too large (> UINT16_MAX entries)")
      else modify w currentShape fun shape => { shape with transitionCapacity := newCapacity % 2 ^ 16 }

def createTransition (w : ShapeWorld) (currentShape : Option Nat) (propertyAtom : Atom)
    (offset : BitVec 16) (isReadonly isHidden isGetter isSetter : Bool) :
    Result (Option Nat × ShapeWorld) :=
  match currentShape with
  | none => .ok (none, w)
  | some currentShape => do
    let shape ← read w currentShape
    let transitionIdx := shape.transitionCount
    let w ← growTransitionTable w currentShape
    let property := makePropertyInShape propertyAtom offset isReadonly isHidden isGetter isSetter
    let shape ← read w currentShape
    if shape.propertyCount = uint16Max then
      .error (.outOfMemory "Shape properties count is too big")
    else do
      let (child, w) ← makeShape w currentShape property.attributes
      let childShape ← read w child
      let w ← writeProperty w childShape.propArray (childShape.propertyCount - 1) property
      let shape ← read w currentShape
      let w ← writeTransition w shape.transitionTable transitionIdx (transiteTo child propertyAtom)
      let w ← modify w currentShape fun shape => { shape with
        transitionCount := (shape.transitionCount + 1) % 2 ^ 16 }
      .ok (some child, w)

def getProperty (w : ShapeWorld) (shape : Option Nat) (propertyAtom : Atom) :
    Result (Option PropertyDescriptor) :=
  match shape with
  | none => .ok none
  | some p => do
    let descriptors ← usedProperties w (← read w p)
    .ok (descriptors.find? fun property => property.nameAtom = propertyAtom)

def hasProperty (w : ShapeWorld) (shape : Option Nat) (propertyAtom : Atom) : Result Bool :=
  match shape with
  | none => .ok false
  | some p => do
    let property ← getProperty w (some p) propertyAtom
    .ok property.isSome

def findPropertyOffset (w : ShapeWorld) (shape : Option Nat) (propertyAtom : Atom) :
    Result (BitVec 16) := do
  match ← getProperty w shape propertyAtom with
  | some property => .ok property.offsetIndex
  | none => .ok invalidIndex

def getShapeEpoche (w : ShapeWorld) (shape : Option Nat) : Result (BitVec 16) :=
  match shape with
  | none => .ok 4095#16
  | some p => do
    let shape ← read w p
    .ok (shape.shapeFlags >>> 4)

def shapeEpochRawMask : BitVec 16 := 0x4095#16

-- The statement `int12ValueOfEpoche << 4;` has no effect.
def setShapeEpoche (w : ShapeWorld) (shape : Option Nat) (int12ValueOfEpoche : BitVec 16) :
    Result ShapeWorld :=
  match shape with
  | none => .ok w
  | some p => modify w p fun shape => { shape with
      shapeFlags := shape.shapeFlags ||| (int12ValueOfEpoche &&& shapeEpochRawMask) }

def getLastProperty (w : ShapeWorld) (shape : Option Nat) : Result (Option PropertyDescriptor) :=
  match shape with
  | none => .ok none
  | some p => do
    let shape ← read w p
    if shape.propertyCount = 0 then .ok none
    else do
      let descriptors ← readProperties w shape.propArray
      match descriptors[shape.propertyCount - 1]? with
      | none => .error (.invalidAccess (shape.propArray.getD 0))
      | some property => .ok (some property)

def findEntry (w : ShapeWorld) (propertyAtom : Atom) (attributes : BitVec 16) :
    List TransitionEntry → Result (Option TransitionEntry)
  | [] => .ok none
  | transition :: rest =>
    if transition.targetShape = none ∨ transition.propertyAtom ≠ propertyAtom then
      findEntry w propertyAtom attributes rest
    else do
      let lastProp ← getLastProperty w transition.targetShape
      if lastProp.any (·.attributes = attributes) then .ok (some transition)
      else findEntry w propertyAtom attributes rest

def findTransition (w : ShapeWorld) (shape : Option Nat) (propertyAtom : Atom)
    (attributes : BitVec 16) : Result (Option TransitionEntry) :=
  match shape with
  | none => .ok none
  | some p => do
    let shape ← read w p
    if shape.transitionTable = none then .ok none
    else do
      let entries ← elements (← readTransitions w shape.transitionTable) shape.transitionCount
      findEntry w propertyAtom attributes entries

-- The first part of transitionShape: "Has we shape with same transition?"
def sameTransition (w : ShapeWorld) (p : Nat) (propertyAtom : Atom) (attributes : BitVec 16) :
    Result (Option TransitionEntry) := do
  let shape ← read w p
  if shape.transitionTable ≠ none then findTransition w (some p) propertyAtom attributes
  else .ok none

def transitionShape (w : ShapeWorld) (currentShape : Option Nat) (propertyAtom : Atom)
    (offset : BitVec 16) (isReadonly isHidden isGetter isSetter : Bool) :
    Result (Option Nat × ShapeWorld) :=
  match currentShape with
  | none => .ok (none, w)
  | some p => do
    let found ← sameTransition w p propertyAtom (attributesOf isReadonly isHidden isGetter isSetter)
    match found with
    | some transition => .ok (transition.targetShape, w)
    | none =>
      createTransition w currentShape propertyAtom offset isReadonly isHidden isGetter isSetter

def markShapeAlive (w : ShapeWorld) (shape : Option Nat) : Result ShapeWorld :=
  match shape with
  | none => .ok w
  | some p => modify w p fun shape => { shape with
      shapeFlags := shape.shapeFlags ||| shapeFlags.isMarkedAlive }

def setFlag (flag : BitVec 16) (w : ShapeWorld) (p : Nat) (on : Bool) : Result ShapeWorld :=
  modify w p fun shape => { shape with
    shapeFlags := if on then shape.shapeFlags ||| flag else shape.shapeFlags &&& ~~~flag }

def setShapeFrozen (w : ShapeWorld) (p : Nat) (isFrozen : Bool) : Result ShapeWorld :=
  setFlag shapeFlags.isFrozen w p isFrozen

def setShapeHashTableMode (w : ShapeWorld) (p : Nat) (isHashTableMode : Bool) : Result ShapeWorld :=
  setFlag shapeFlags.isHashTableMode w p isHashTableMode

def isShapeAlive (shape : Shape) : Bool := shape.shapeFlags &&& shapeFlags.isMarkedAlive ≠ 0#16

def hasShapeAccessors (shape : Shape) : Bool := shape.shapeFlags &&& shapeFlags.hasAccessors ≠ 0#16

def isShapeFrozen (shape : Shape) : Bool := shape.shapeFlags &&& shapeFlags.isFrozen ≠ 0#16

def isShapeHashTableMode (shape : Shape) : Bool :=
  shape.shapeFlags &&& shapeFlags.isHashTableMode ≠ 0#16

def killShape (w : ShapeWorld) (shape : Option Nat) : Result ShapeWorld :=
  match shape with
  | none => .ok w
  | some p => do
    let shape ← read w p
    let w :=
      if shape.propertyCount ≠ 0 then
        MetaArena.metarecycle w (shape.propArray.getD 0)
          (sizeofPropertyDescriptor * shape.propertyCount)
      else w
    let w :=
      if shape.transitionCapacity ≠ 0 then
        MetaArena.metarecycle w (shape.transitionTable.getD 0)
          (sizeofTransitionEntry * shape.transitionCapacity)
      else w
    .ok (MetaArena.metarecycle w p sizeofShape)

def entryOf (shape : Nat) (entries : List TransitionEntry) : Option Nat :=
  entries.findIdx? fun entry => entry.targetShape = some shape

def usedEntries (w : ShapeWorld) (parentShape : Shape) : Result (List TransitionEntry) :=
  if parentShape.transitionCount = 0 then .ok []
  else do elements (← readTransitions w parentShape.transitionTable) parentShape.transitionCount

-- The last part of forgetShape: the parent's entry is overwritten by its last one.
def forgetTransition (w : ShapeWorld) (p parent : Nat) : Result ShapeWorld := do
  let parentShape ← read w parent
  let count := parentShape.transitionCount
  let entries ← usedEntries w parentShape
  match entryOf p entries with
  | none => .error (.panic .internalError "Failed to find parent-current transition")
  | some i =>
    match entries[count - 1]? with
    | none => .error (.invalidAccess (parentShape.transitionTable.getD 0))
    | some last => do
      let w ← writeTransition w parentShape.transitionTable i last
      modify w parent fun shape => { shape with transitionCount := count - 1 }

def unlink (w : ShapeWorld) (shape : Shape) (prev : Nat) : Result ShapeWorld := do
  let w ←
    match shape.nextShapeInArena with
    | none => .ok w
    | some next => modify w next fun shape' => { shape' with prevShapeInArena := some prev }
  modify w prev fun shape' => { shape' with nextShapeInArena := shape.nextShapeInArena }

def forgetShape (w : ShapeWorld) (shape : Option Nat) : Result ShapeWorld :=
  match shape with
  | none => .ok w
  | some p => do
    let shape ← read w p
    match shape.prevShapeInArena with
    | none =>
      if shape.parentShape = none then .ok w
      else .error (.panic .internalError "Non-root shape with null prevShapeInArena (corrupted list)")
    | some prev => do
      let w :=
        if some p = w.metaArena.lastAllocatedShape then setLastAllocatedShape w (some prev) else w
      let w ← unlink w shape prev
      match shape.parentShape with
      | none => .error (.invalidAccess 0)
      | some parent => forgetTransition w p parent

-- The loop from `current` back to the first shape; the fuel bounds its rounds.
def sweepFrom : Nat → ShapeWorld → Nat → Nat → Result (Nat × ShapeWorld)
  | 0, _, _, _ => .error .unfinished
  | fuel + 1, w, current, killed => do
    let shape ← read w current
    match shape.prevShapeInArena with
    | none => .ok (killed, w)
    | some prev =>
      if isShapeAlive shape = false then do
        let w ← forgetShape w (some current)
        let w ← killShape w (some current)
        sweepFrom fuel w prev (killed + 1)
      else do
        let w ← modify w current fun shape => { shape with
          shapeFlags := shape.shapeFlags &&& ~~~shapeFlags.isMarkedAlive }
        sweepFrom fuel w prev killed

def sweepOrphanedShapes (fuel : Nat) (w : ShapeWorld) : Result (Nat × ShapeWorld) :=
  match w.metaArena.lastAllocatedShape with
  | none => .ok (0, w)
  | some last => sweepFrom fuel w last 0

def getShapeChainDepth : Nat → ShapeWorld → Nat → Result Nat
  | 0, _, _ => .error .unfinished
  | fuel + 1, w, p => do
    let shape ← read w p
    match shape.parentShape with
    | none => .ok 0
    | some parent => do
      let depth ← getShapeChainDepth fuel w parent
      .ok ((depth + 1) % 2 ^ 16)

end Shape

end ElySquare
