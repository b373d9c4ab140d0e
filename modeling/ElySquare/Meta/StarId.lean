import ElySquare.Meta.Heap
import ElySquare.Meta.Shape

set_option autoImplicit false

namespace ElySquare

abbrev Byte := BitVec 8

def brokenAtom : Atom := 0xFFFFFFFF#32

namespace stringFlags

def gcMarkRawMask : BitVec 64 := 0x8000000000000000#64
def starIdStarMask : Atom := 0x80000000#32
def starIdIndexMask : Atom := 0x0000FFFF#32

end stringFlags

def byteOf (c : Char) : Byte := BitVec.ofNat 8 c.toNat

def starIDCharset : List Byte :=
  ['0', '1', '2', '3', '4', '5', '6', '7', '8', '9', 'a', 'b', 'c', 'd', 'e', 'f', 'g', 'h', 'i', 'j',
    'k', 'l', 'm', 'n', 'o', 'p', 'q', 'r', 's', 't', 'u', 'v', 'w', 'x', 'y', 'z'].map byteOf

-- FNV-1a. A `char` is signed.
def hashString (str : List Byte) : BitVec 64 :=
  str.foldl (fun hash c => (hash ^^^ c.signExtend 64) * 1099511628211#64) 14695981039346656037#64

-- The bytes that can be read from a pointer on, up to a count, and up to the first NUL.
def firstBytes (raw : List Byte) (length : Nat) : Result (List Byte) :=
  if length ≤ raw.length then .ok (raw.take length) else .error (.invalidAccess 0)

def strlen (raw : List Byte) : Result Nat :=
  match raw.findIdx? (· = 0#8) with
  | some length => .ok length
  | none => .error (.invalidAccess 0)

def starDigit (c : Byte) : Nat :=
  if byteOf '0' ≤ c ∧ c ≤ byteOf '9' then c.toNat - (byteOf '0').toNat
  else if byteOf 'a' ≤ c ∧ c ≤ byteOf 'z' then c.toNat - (byteOf 'a').toNat + 10
  else if byteOf 'A' ≤ c ∧ c ≤ byteOf 'Z' then c.toNat - (byteOf 'A').toNat + 10
  else 0

def isSSO (len : Nat) : Bool := decide (len < 8)

-- The loop of charToAtom over the characters after the star. `num` is an unsigned short.
def starNumber : List Byte → Nat → Result Nat
  | [], _ => .error (.invalidAccess 0)
  | c :: text, num =>
    if c = 0#8 then .ok num else starNumber text ((num * 36 % 2 ^ 16 + starDigit c) % 2 ^ 16)

-- memcpy of bytes to the start of an atom, on a little-endian machine.
def ssoBytes (bytes : List Byte) : Atom :=
  bytes.foldr (fun c value => value <<< 8 ||| c.zeroExtend 32) 0#32

def charToAtom (text : Option (List Byte)) : Result Atom :=
  match text with
  | none => .ok 0#32
  | some [] => .error (.invalidAccess 0)
  | some (first :: rest) =>
    if first = byteOf '*' then do
      let num ← starNumber rest 0
      .ok (stringFlags.starIdStarMask ||| BitVec.ofNat 32 num)
    else do
      let count ← strlen (first :: rest)
      .ok (ssoBytes ((first :: rest).take (min 4 count)) &&& ~~~stringFlags.starIdStarMask)

-- What the two loops of numToStarId leave at buffer[1] to buffer[idx].
def starDigits : Nat → Nat → List Byte
  | 0, _ => []
  | idx + 1, n =>
    if n / 36 > 0 ∧ idx > 0 then starDigits idx (n / 36) ++ [starIDCharset.getD (n % 36) 0#8]
    else List.replicate idx (byteOf '0') ++ [starIDCharset.getD (n % 36) 0#8]

-- `stack` is what lies in memory from buffer[7] on, which is never written.
def numToStarId (stack : List Byte) (num : Nat) : Result Atom :=
  charToAtom (some (byteOf '*' :: starDigits 6 num ++ stack))

def starIdToNum (starID : Atom) : Nat := (starID &&& stringFlags.starIdIndexMask).toNat

-- The bytes of an atom in memory, on a little-endian machine.
def atomBytes (a : Atom) : List Byte :=
  [a.extractLsb' 0 8, a.extractLsb' 8 8, a.extractLsb' 16 8, a.extractLsb' 24 8]

def putBytes (buffer : List Byte) (i : Nat) (bytes : List Byte) : Result (List Byte) :=
  if i + bytes.length ≤ buffer.length then
    .ok (buffer.take i ++ bytes ++ buffer.drop (i + bytes.length))
  else .error (.invalidAccess i)

-- `outBuffer` holds the bytes from the pointer on, before the call and after it.
def atomToBufferChar (a : Atom) (outBuffer : List Byte) (bufferSize : Nat) : Result (List Byte) :=
  if a = brokenAtom then .ok outBuffer
  else if a &&& stringFlags.starIdStarMask ≠ 0#32 then do
    let num := (a &&& stringFlags.starIdIndexMask).toNat
    let outBuffer ← putBytes outBuffer 0 [byteOf '*']
    let outBuffer ← putBytes outBuffer 7 [0#8]
    putBytes outBuffer 1 (starDigits 6 num)
  else do
    let count := min 4 ((bufferSize + (2 ^ 64 - 1)) % 2 ^ 64)
    let outBuffer ← putBytes outBuffer 0 ((atomBytes a).take count)
    putBytes outBuffer 4 [0#8]

structure StarPlace where
  ptr : Option Nat
  lenAndMark : BitVec 64
deriving DecidableEq, Repr

namespace StarPlace

def zero : StarPlace := ⟨none, 0#64⟩

def len (place : StarPlace) : Nat := (place.lenAndMark &&& ~~~stringFlags.gcMarkRawMask).toNat

def setLen (place : StarPlace) (len : Nat) : StarPlace :=
  { place with lenAndMark := BitVec.ofNat 64 len &&& ~~~stringFlags.gcMarkRawMask }

def isMarkedAlive (place : StarPlace) : Bool :=
  decide (place.lenAndMark &&& stringFlags.gcMarkRawMask ≠ 0#64)

def setMarkedAlive (place : StarPlace) (mark : Bool) : StarPlace :=
  { place with lenAndMark :=
      if mark then place.lenAndMark ||| stringFlags.gcMarkRawMask
      else place.lenAndMark &&& ~~~stringFlags.gcMarkRawMask }

end StarPlace

/-- What the blocks of the registry's arena hold: its three arrays, the texts with the NUL after them, and
the pointers to the texts. -/
inductive AlarObject
  | places (places : List StarPlace)
  | hashes (hashes : List (BitVec 64))
  | flags (flags : List Byte)
  | text (chars : List Byte)
  | ref (text : Nat)
deriving DecidableEq, Repr

abbrev AlarWorld := World (Heap AlarObject)

/-- The field `arena` is the meta arena of the world. -/
structure ALAR where
  placelist : Nat
  hashCache : Nat
  idmap : Nat
  starIDMaxCount : Nat
  createdPlacesCount : Nat
deriving DecidableEq, Repr

namespace ALAR

open MetaArena (metalloc metallocOr metarecycle)

def sizeofMetaArena : Nat := 1040

def sizeofStarPlace : Nat := 16

def sizeofUmore : Nat := 8

def sizeofPointer : Nat := 8

section Memory

variable {Element : Type}

def read (w : AlarWorld) (p : Nat) (view : AlarObject → Option Element) : Result Element :=
  match w.memory p with
  | some (.object o) =>
    match view o with
    | some element => .ok element
    | none => .error (.invalidAccess p)
  | _ => .error (.invalidAccess p)

def asPlaces : AlarObject → Option (List StarPlace)
  | .places places => some places
  | _ => none

def asHashes : AlarObject → Option (List (BitVec 64))
  | .hashes hashes => some hashes
  | _ => none

def asFlags : AlarObject → Option (List Byte)
  | .flags flags => some flags
  | _ => none

def asText : AlarObject → Option (List Byte)
  | .text chars => some chars
  | _ => none

def asRef : AlarObject → Option Nat
  | .ref text => some text
  | _ => none

def element (w : AlarWorld) (p : Nat) (view : AlarObject → Option (List Element)) (i : Nat) :
    Result Element := do
  let array ← read w p view
  match array[i]? with
  | some element => .ok element
  | none => .error (.invalidAccess p)

def setElement (w : AlarWorld) (p : Nat) (view : AlarObject → Option (List Element))
    (wrap : List Element → AlarObject) (i : Nat) (change : Element → Element) : Result AlarWorld := do
  let array ← read w p view
  match array[i]? with
  | some element => .ok (store w p (wrap (array.set i (change element))))
  | none => .error (.invalidAccess p)

end Memory

variable (alar : ALAR) (w : AlarWorld)

def placeAt (i : Nat) : Result StarPlace := element w alar.placelist asPlaces i

def hashAt (i : Nat) : Result (BitVec 64) := element w alar.hashCache asHashes i

def flagAt (i : Nat) : Result Byte := element w alar.idmap asFlags i

-- *(place.ptr), as the bytes from there on.
def rawOf (place : StarPlace) : Result (List Byte) :=
  match place.ptr with
  | none => .error (.invalidAccess 0)
  | some ptr => do read w (← read w ptr asRef) asText

def sameText (place : StarPlace) (text : List Byte) : Result Bool :=
  if place.len = text.length then do
    let chars ← firstBytes (← rawOf w place) text.length
    .ok (chars = text)
  else .ok false

-- The loop of getStarIdOf: the place of `text`, if there is one among the next `rounds`.
def findPlace (text : List Byte) : Nat → Nat → Result (Option Nat)
  | 0, _ => .ok none
  | rounds + 1, i => do
    if (← flagAt alar w i) = 0#8 then findPlace text rounds (i + 1)
    else if (← hashAt alar w i) = hashString text then do
      if ← sameText w (← placeAt alar w i) text then .ok (some i)
      else findPlace text rounds (i + 1)
    else findPlace text rounds (i + 1)

def getStarIdOf (stack : List Byte) (raw : Option (List Byte)) (length : Nat) : Result Atom :=
  match raw with
  | none => .ok brokenAtom
  | some raw => do
    let length ← if length = 0 then strlen raw else .ok length
    let text ← firstBytes raw length
    match ← findPlace alar w text alar.createdPlacesCount 0 with
    | some i => numToStarId stack i
    | none => .ok brokenAtom

-- The loop of staridize: the first of the next `rounds` places that is not in use.
def freePlace : Nat → Nat → Result Nat
  | 0, i => .ok i
  | rounds + 1, i => do
    if (← flagAt alar w i) ≠ 0#8 then freePlace rounds (i + 1) else .ok i

-- The block for the text and the one for the pointer to it. The NUL is kept with the text, also at a length
-- that is a positive multiple of alignQuantum, where the code writes it past the block: see copyWrites.
def writeText (text : Option (List Byte)) (length : Nat) : Result (List Byte × Nat × AlarWorld) := do
  let (textPtr, w) ← metallocOr "Can't write new string" w length 1
  let chars ← firstBytes (text.getD []) length
  let w := store w textPtr (.text (chars ++ [0#8]))
  let (ppTextPtr, w) ← metalloc w sizeofPointer 8
  if ppTextPtr = 0 then .error (.invalidAccess 0)
  else .ok (chars, ppTextPtr, store w ppTextPtr (.ref textPtr))

def staridize (stack : List Byte) (text : Option (List Byte)) (length : Nat) :
    Result (Atom × ALAR × AlarWorld) := do
  let forFound ← getStarIdOf alar w stack text length
  if forFound ≠ brokenAtom then .ok (forFound, alar, w)
  else do
    let i ← freePlace alar w alar.starIDMaxCount 0
    if i ≥ alar.starIDMaxCount then .error (.outOfMemory "ALAR of Thread is full!")
    else do
      let (chars, ppTextPtr, w) ← writeText w text length
      let w ← setElement w alar.placelist asPlaces .places i fun place =>
        { place with ptr := some ppTextPtr }.setLen length
      let w ← setElement w alar.hashCache asHashes .hashes i fun _ => hashString chars
      let w ← setElement w alar.idmap asFlags .flags i fun _ => 1#8
      let createdPlacesCount :=
        if i ≥ alar.createdPlacesCount then (i + 1) % 2 ^ 16 else alar.createdPlacesCount
      let w ← setElement w alar.idmap asFlags .flags i fun _ => 1#8
      let id ← numToStarId stack i
      .ok (id, { alar with createdPlacesCount := createdPlacesCount }, w)

def getNewStarId (stack : List Byte) : Result (Atom × ALAR) :=
  if alar.createdPlacesCount ≥ alar.starIDMaxCount then
    .error (.panic .runtimeError "String ALAR overflow!")
  else do
    let id ← numToStarId stack alar.createdPlacesCount
    .ok (id, { alar with createdPlacesCount := (alar.createdPlacesCount + 1) % 2 ^ 16 })

def getRaw (starId : Atom) : Result (List Byte) :=
  let idx := starIdToNum starId
  if starId = brokenAtom ∨ idx < alar.createdPlacesCount then do rawOf w (← placeAt alar w idx)
  else .ok [0#8, 0#8]

def lenOf (starID : Atom) : Result Nat :=
  let idx := starIdToNum starID
  if starID = brokenAtom ∨ idx < alar.createdPlacesCount then do
    let place ← placeAt alar w idx
    .ok place.len
  else .ok 0

-- *place.ptr, as a pointer.
def textPtr (place : StarPlace) : Result Nat :=
  match place.ptr with
  | none => .error (.invalidAccess 0)
  | some ptr => read w ptr asRef

-- One round of the loop of sweepPlaces, and whether it kills the place.
def sweepPlace (i : Nat) : Result (Bool × AlarWorld) := do
  if (← flagAt alar w i) = 0#8 then .ok (false, w)
  else do
    let place ← placeAt alar w i
    if place.isMarkedAlive then do
      let w ← setElement w alar.placelist asPlaces .places i fun place => place.setMarkedAlive false
      .ok (false, w)
    else do
      let w := metarecycle w (← textPtr w place) place.len
      -- `placelist->lenAndMark` is the first place's, whatever i is
      let w ← setElement w alar.placelist asPlaces .places 0 fun place => { place with lenAndMark := 0#64 }
      let w ← setElement w alar.idmap asFlags .flags i fun _ => 0#8
      .ok (true, w)

def sweepFrom : Nat → Nat → Nat → AlarWorld → Result (Nat × AlarWorld)
  | 0, _, killed, w => .ok (killed, w)
  | rounds + 1, i, killed, w => do
    let (dead, w) ← sweepPlace alar w i
    sweepFrom rounds (i + 1) (if dead then killed + 1 else killed) w

def sweepPlaces : Result (Nat × AlarWorld) := sweepFrom alar alar.createdPlacesCount 0 0 w

def noMemory : String := "Couldn't create ALAR for Thread: there is no memory"

-- The new arena shares the page manager of the one that it is created in.
def construct {Memory : Type} [LinkStore Memory] (arenaCreatingIn : Option (World Memory))
    (starIDMaxCount : Nat) : Result (ALAR × AlarWorld × World Memory) :=
  match arenaCreatingIn with
  | none =>
    .error (.panic .internalError "Couldn't create ALAR for Thread: there is no arena for it")
  | some creating => do
    let arenaStarIDSize := sizeofStarPlace * starIDMaxCount
    let hashCacheSize := sizeofUmore * starIDMaxCount
    let (_, creating) ← metallocOr noMemory creating sizeofMetaArena 8
    let w ← MetaArena.construct creating.manager (arenaStarIDSize * 4) Heap.empty
    let (placelist, w) ← metallocOr noMemory w arenaStarIDSize 8
    let w := store w placelist (.places (List.replicate starIDMaxCount StarPlace.zero))
    let (hashCache, w) ← metallocOr noMemory w hashCacheSize 8
    let w := store w hashCache (.hashes (List.replicate starIDMaxCount 0#64))
    let (idmap, w) ← metallocOr noMemory w starIDMaxCount 1
    let w := store w idmap (.flags (List.replicate starIDMaxCount 0#8))
    .ok (⟨placelist, hashCache, idmap, starIDMaxCount, 0⟩, w, { creating with manager := w.manager })

end ALAR

end ElySquare
