import ElySquare.Shared.LittleEndian
import ElySquare.Allocators.BuddyCoalescing

set_option autoImplicit false

namespace ElySquare.Buddy

open Dyadic Linked Transition

-- The pool's bytes by offset, laid out as on x86-64: the bit-fields share the first byte, the
-- links follow the 16 bytes of the base class.
def Bytes : Type := Nat → BitVec 8

namespace Bytes

def nextAt (o : Nat) : Nat := o + headerSize

def prevAt (o : Nat) : Nat := o + headerSize + 4

def word (m : Bytes) (o : Nat) : Nat := LittleEndian.read m o 4

def setByte (m : Bytes) (o : Nat) (byte : BitVec 8) : Bytes := fun x => if x = o then byte else m x

def setWord (m : Bytes) (o value : Nat) : Bytes := LittleEndian.write m o 4 value

def orderField (byte : BitVec 8) : Nat := byte.toNat % 128

def freeField (byte : BitVec 8) : Bool := byte.toNat ≥ 128

def headerByte (order : Nat) (isFree : Bool) : BitVec 8 :=
  BitVec.ofNat 8 (order % 128 + if isFree then 128 else 0)

theorem headerByte_toNat (order : Nat) (isFree : Bool) :
    (headerByte order isFree).toNat = order % 128 + if isFree then 128 else 0 := by
  unfold headerByte
  rw [BitVec.toNat_ofNat]
  cases isFree <;> simp only [if_true, Bool.false_eq_true, if_false] <;> omega

@[simp] theorem orderField_headerByte (order : Nat) (isFree : Bool) :
    orderField (headerByte order isFree) = order % 128 := by
  unfold orderField
  rw [headerByte_toNat]
  cases isFree <;> simp only [if_true, Bool.false_eq_true, if_false] <;> omega

@[simp] theorem freeField_headerByte (order : Nat) (isFree : Bool) :
    freeField (headerByte order isFree) = isFree := by
  unfold freeField
  rw [headerByte_toNat]
  cases isFree <;> simp only [if_true, Bool.false_eq_true, if_false, ge_iff_le, decide_eq_true_eq,
    decide_eq_false_iff_not] <;> omega

theorem headerByte_fields (byte : BitVec 8) :
    headerByte (orderField byte) (freeField byte) = byte := by
  apply BitVec.eq_of_toNat_eq
  rw [headerByte_toNat]
  have := byte.isLt
  unfold orderField freeField
  by_cases free : byte.toNat ≥ 128 <;> simp [free] <;> omega

theorem word_setWord (m : Bytes) (o value : Nat) (small : value < 2 ^ 32) :
    word (setWord m o value) o = value :=
  LittleEndian.read_write m o 4 value small

theorem setWord_outside (m : Bytes) (o value x : Nat) (outside : x < o ∨ o + 4 ≤ x) :
    setWord m o value x = m x :=
  LittleEndian.write_outside m o 4 value x outside

theorem word_setWord_outside (m : Bytes) (o value x : Nat) (outside : x + 4 ≤ o ∨ o + 4 ≤ x) :
    word (setWord m o value) x = word m x :=
  LittleEndian.read_write_outside m o 4 value x 4 outside

theorem setByte_here (m : Bytes) (o : Nat) (byte : BitVec 8) : setByte m o byte o = byte := if_pos rfl

theorem setByte_there (m : Bytes) (o : Nat) (byte : BitVec 8) (x : Nat) (other : x ≠ o) :
    setByte m o byte x = m x :=
  if_neg other

theorem word_setByte (m : Bytes) (o x : Nat) (byte : BitVec 8) (outside : o < x ∨ x + 4 ≤ o) :
    word (setByte m o byte) x = word m x :=
  LittleEndian.read_congr _ _ x 4 fun _ above below => setByte_there m o byte _ (by omega)

end Bytes

open Bytes

instance : HeaderStore Bytes where
  header m o := ⟨orderField (m o), freeField (m o), word m (nextAt o), word m (prevAt o)⟩
  setOrder m o k := setByte m o (headerByte k (freeField (m o)))
  setFree m o f := setByte m o (headerByte (orderField (m o)) f)
  setNext m o v := setWord m (nextAt o) v
  setPrev m o v := setWord m (prevAt o) v

def linkedHeaderSize : Nat := headerSize + 8

theorem header_setByte_here (m : Bytes) (o : Nat) (byte : BitVec 8) :
    header (setByte m o byte) o =
      { header m o with order := orderField byte, isFree := freeField byte } := by
  have next := word_setByte m o (nextAt o) byte (.inl (by unfold nextAt headerSize; omega))
  have prev := word_setByte m o (prevAt o) byte (.inl (by unfold prevAt headerSize; omega))
  simp only [header, setByte_here, next, prev]

theorem header_setByte_there (m : Bytes) (o x : Nat) (byte : BitVec 8)
    (apart : Apart linkedHeaderSize o x) : header (setByte m o byte) x = header m x := by
  unfold Apart linkedHeaderSize headerSize at apart
  have own := setByte_there m o byte x (by omega)
  have next := word_setByte m o (nextAt x) byte (by unfold nextAt headerSize; omega)
  have prev := word_setByte m o (prevAt x) byte (by unfold prevAt headerSize; omega)
  simp only [header, own, next, prev]

theorem header_setWord_there (m : Bytes) (o at' value x : Nat) (after : o ≤ at')
    (before : at' + 4 ≤ o + linkedHeaderSize) (apart : Apart linkedHeaderSize o x) :
    header (setWord m at' value) x = header m x := by
  unfold Apart linkedHeaderSize headerSize at *
  have own := setWord_outside m at' value x (by omega)
  have next := word_setWord_outside m at' value (nextAt x) (by unfold nextAt headerSize; omega)
  have prev := word_setWord_outside m at' value (prevAt x) (by unfold prevAt headerSize; omega)
  simp only [header, own, next, prev]

theorem header_setNext_here (m : Bytes) (o value : Nat) (small : value < 2 ^ 32) :
    header (setNext m o value) o = { header m o with nextOffset := value } := by
  have own := setWord_outside m (nextAt o) value o (.inl (by unfold nextAt headerSize; omega))
  have prev := word_setWord_outside m (nextAt o) value (prevAt o)
    (.inr (by unfold nextAt prevAt; omega))
  simp only [header, setNext, own, prev, word_setWord m _ value small]

theorem header_setPrev_here (m : Bytes) (o value : Nat) (small : value < 2 ^ 32) :
    header (setPrev m o value) o = { header m o with prevOffset := value } := by
  have own := setWord_outside m (prevAt o) value o (.inl (by unfold prevAt headerSize; omega))
  have next := word_setWord_outside m (prevAt o) value (nextAt o)
    (.inl (by unfold nextAt prevAt; omega))
  simp only [header, setPrev, own, next, word_setWord m _ value small]

theorem bytes_lawful : LawfulStore Bytes linkedHeaderSize := by
  refine ⟨by decide, ?_, ?_, header_setNext_here, header_setPrev_here, ?_, ?_, ?_, ?_⟩
  · intro m o k small
    have shown := header_setByte_here m o (headerByte k (freeField (m o)))
    rw [orderField_headerByte, freeField_headerByte, Nat.mod_eq_of_lt small] at shown
    exact shown
  · intro m o f
    have shown := header_setByte_here m o (headerByte (orderField (m o)) f)
    have reduced : orderField (m o) % 128 = orderField (m o) := Nat.mod_mod _ _
    rw [orderField_headerByte, freeField_headerByte, reduced] at shown
    exact shown
  · exact fun m o k x apart => header_setByte_there m o x _ apart
  · exact fun m o f x apart => header_setByte_there m o x _ apart
  · exact fun m o v x apart => header_setWord_there m o (nextAt o) v x (Nat.le_add_right _ _)
      (by unfold nextAt linkedHeaderSize; omega) apart
  · exact fun m o v x apart => header_setWord_there m o (prevAt o) v x
      (by unfold prevAt; omega) (by unfold prevAt linkedHeaderSize; omega) apart

theorem byte_of_header (m : Bytes) (o order : Nat) (isFree : Bool)
    (shown : (header m o).order = order ∧ (header m o).isFree = isFree) :
    m o = headerByte order isFree := by
  obtain ⟨rfl, rfl⟩ := shown
  exact (headerByte_fields (m o)).symm

-- The calls that cut no block of the smallest order, whose links would not fit in it.
def NotTiny (s : Run Bytes) : Call → Prop
  | .alloc size => 2 ^ minOrder < size ∨ size = 0 ∨ s.allocator.activeBinsBitmap = 0#32
  | .free _ => True

theorem NotTiny.allowed {s : Run Bytes} {call : Call} (notTiny : NotTiny s call) :
    Allowed 5 s call := by
  cases call with
  | alloc size =>
      refine notTiny.imp_left fun large => ?_
      unfold minOrder at large
      by_contra small
      have fits := size_le_two_pow size (.inl (by unfold maxOrder; omega))
      have bound := Nat.pow_le_pow_right (n := 2) (by omega)
        (show sizeToOrder size ≤ 4 by omega)
      omega
  | free ptr => trivial

theorem related_of_notTiny (chunkptr size : Nat) (s : Run Bytes)
    (reached : ((system Bytes chunkptr size).restrict NotTiny).Reachable s) :
    ∃ p, Related 5 size s p := by
  refine related_of_reachable bytes_lawful (by decide) (by decide) (by decide) chunkptr size s ?_
  refine System.invariant _ _ (fun s started => .start started) ?_ reached
  exact fun before call after earlier taken => .step earlier ⟨taken.1.allowed, taken.2⟩

inductive Act
  | call (call : Call)
  | write (ptr i : Nat) (byte : BitVec 8)

def writeByte (s : Run Bytes) (ptr i : Nat) (byte : BitVec 8) : Run Bytes :=
  { s with allocator := { s.allocator with
      memory := setByte s.allocator.memory (ptrToOffset s.allocator ptr + i) byte } }

theorem header_congr (m m' : Bytes) (o : Nat)
    (same : ∀ x, o ≤ x → x < o + linkedHeaderSize → m' x = m x) : header m' o = header m o := by
  unfold linkedHeaderSize headerSize at same
  have own := same o (by omega) (by omega)
  have next : word m' (nextAt o) = word m (nextAt o) := LittleEndian.read_congr _ _ _ 4 fun x above below =>
    same x (by unfold nextAt at above; omega) (by unfold nextAt headerSize at below; omega)
  have prev : word m' (prevAt o) = word m (prevAt o) := LittleEndian.read_congr _ _ _ 4 fun x above below =>
    same x (by unfold prevAt at above; omega) (by unfold prevAt headerSize at below; omega)
  simp only [header, own, next, prev]

theorem Related.write {size : Nat} {s : Run Bytes} {p : Pool} (related : Related 5 size s p) (ptr i : Nat)
    (byte : BitVec 8) (b : Block) (inUse : b ∈ p.live) (covers : b.Covers (ptrToOffset s.allocator ptr + i))
    (past : b.offset + headerSize ≤ ptrToOffset s.allocator ptr + i) :
    Related 5 size (writeByte s ptr i byte) p := by
  obtain ⟨represents, tracks, top, arena, coalesced⟩ := related
  obtain ⟨valid, lists, holding, pages, nodup⟩ := represents
  have elsewhere (c : Block) (member : c ∈ p.free ∪ p.inUse) (different : c ≠ b) :
      header (writeByte s ptr i byte).allocator.memory c.offset = header s.allocator.memory c.offset := by
    refine header_congr _ _ _ fun x above below => setByte_there _ _ _ _ fun same => different ?_
    have large := Nat.pow_le_pow_right (n := 2) (by omega) (valid.orders c member)
    refine valid.tiling.apart c member b (.inr inUse) x ⟨above, ?_⟩ (same ▸ covers)
    unfold linkedHeaderSize headerSize at below
    unfold Block.finish
    omega
  have freeThere (c : Block) (member : c ∈ p.free) :
      header (writeByte s ptr i byte).allocator.memory c.offset = header s.allocator.memory c.offset :=
    elsewhere c (.inl member) fun same => Set.disjoint_left.mp valid.separate member (same ▸ inUse)
  refine ⟨⟨valid, ⟨fun k low high => ?_, fun c member => ?_, lists.orders, lists.offsets, lists.bitmap⟩, ?_,
    pages, nodup⟩, tracks, top, arena, coalesced⟩
  · exact (lists.linked k low high).congr _ (fun o member => by rw [freeThere ⟨o, k⟩ member])
      (fun o member => by rw [freeThere ⟨o, k⟩ member])
  · rw [freeThere c member]
    exact lists.headers c member
  · intro c member
    by_cases same : c = b
    · subst same
      have own : (writeByte s ptr i byte).allocator.memory c.offset = s.allocator.memory c.offset :=
        setByte_there _ _ _ _ (by unfold headerSize at past; omega)
      have held := holding c member
      simp only [header] at held ⊢
      rw [own]
      exact held
    · rw [elsewhere c (.inr member) same]
      exact holding c member

structure BytesIntact (s : Run Bytes) (size : Nat) (free used : Set Block) : Prop where
  consistent : Consistent s.allocator (startOrder size) s.live free used
  freeByte : ∀ b ∈ free, s.allocator.memory b.offset = headerByte b.order true
  usedByte : ∀ b ∈ used, s.allocator.memory b.offset = headerByte b.order false

theorem Related.bytesIntact {low size : Nat} {s : Run Bytes} {p : Pool}
    (related : Related low size s p) : BytesIntact s size p.free p.inUse :=
  ⟨related.consistent,
    fun b member => byte_of_header _ _ _ _ (related.consistent.freeHeader b member),
    fun b member => byte_of_header _ _ _ _ (related.consistent.usedHeader b member)⟩

theorem push_byte {low size : Nat} {s : Run Bytes} {p : Pool} (related : Related low size s p)
    (room : linkedHeaderSize ≤ 2 ^ low) (b c : Block) (inUse : b ∈ p.inUse)
    (current : c ∈ p.free ∪ p.inUse) (other : c ≠ b) :
    (pushFreeBlock s.allocator b.offset b.order).memory c.offset =
      s.allocator.memory c.offset := by
  have represents := related.represents
  have whole : insert b (p.inUse \ {b}) = p.inUse := by
    ext d
    by_cases same : d = b <;> simp [same, inUse]
  have valid := represents.valid
  rw [← whole] at valid
  obtain ⟨lists, holding⟩ := push_step bytes_lawful room b valid (fun h => h.2 rfl) represents.lists
    (fun d member => represents.holding d member.1)
  have intact := related.bytesIntact
  rcases current with free | used
  · rw [intact.freeByte c free]
    refine byte_of_header _ _ _ _ (lists.headers c ?_)
    change c ∈ (p.push b).free
    rw [Pool.free_push]
    exact .inr free
  · rw [intact.usedByte c used]
    exact byte_of_header _ _ _ _ (holding c ⟨used, other⟩)

theorem remove_byte {low size : Nat} {s : Run Bytes} {p : Pool} (related : Related low size s p)
    (room : linkedHeaderSize ≤ 2 ^ low) (b c : Block) (free : b ∈ p.free)
    (current : c ∈ p.free ∪ p.inUse) (other : c ≠ b) :
    (removeFreeBlock s.allocator b.offset b.order).memory c.offset =
      s.allocator.memory c.offset := by
  have represents := related.represents
  obtain ⟨lists, holding⟩ := take_step bytes_lawful room b represents.valid free represents.lists
    represents.holding
  have intact := related.bytesIntact
  rcases current with member | used
  · rw [intact.freeByte c member]
    refine byte_of_header _ _ _ _ (lists.headers c ?_)
    change c ∈ (p.take b).free
    obtain ⟨lowest, highest⟩ := represents.lists.orders b free
    rw [Pool.free_take _ _ (represents.lists.nodup b.order lowest highest)]
    exact ⟨member, other⟩
  · rw [intact.usedByte c used]
    exact byte_of_header _ _ _ _ (holding c (.inr used))

theorem buddy_bytes (chunkptr size : Nat) (s : Run Bytes)
    (reached : ((system Bytes chunkptr size).restrict NotTiny).Reachable s) :
    ∃ free used, BytesIntact s size free used ∧
      (∀ b ∈ used, ∀ c ∈ free ∪ used, c ≠ b →
        (pushFreeBlock s.allocator b.offset b.order).memory c.offset =
          s.allocator.memory c.offset) ∧
      (∀ b ∈ free, ∀ c ∈ free ∪ used, c ≠ b →
        (removeFreeBlock s.allocator b.offset b.order).memory c.offset =
          s.allocator.memory c.offset) := by
  obtain ⟨p, related⟩ := related_of_notTiny chunkptr size s reached
  exact ⟨_, _, related.bytesIntact, fun b used c => push_byte related (by decide) b c used,
    fun b free c => remove_byte related (by decide) b c free⟩

def freshPool : BuddyAllocator Bytes := construct 4096 4096 fun _ => 0#8

def poolAfter (size : Nat) : Run Bytes := ⟨(alloc freshPool size).2, [⟨4112, size⟩]⟩

theorem buddy_bytes_hundred : ∃ free used, BytesIntact (poolAfter 100) 4096 free used ∧
    (∀ b ∈ used, ∀ c ∈ free ∪ used, c ≠ b →
      (pushFreeBlock (poolAfter 100).allocator b.offset b.order).memory c.offset =
        (poolAfter 100).allocator.memory c.offset) ∧
    (∀ b ∈ free, ∀ c ∈ free ∪ used, c ≠ b →
      (removeFreeBlock (poolAfter 100).allocator b.offset b.order).memory c.offset =
        (poolAfter 100).allocator.memory c.offset) := by
  refine buddy_bytes 4096 4096 (poolAfter 100) ?_
  have step := Run.Step.alloc ⟨freshPool, []⟩ 100
  have result : (alloc freshPool 100).1 = some 4112 := by decide +kernel
  rw [result] at step
  have notTiny : NotTiny ⟨freshPool, []⟩ (.alloc 100) := .inl (by decide)
  exact .step (.start ⟨_, rfl⟩) ⟨notTiny, step⟩

-- alloc(1) cuts the page down to a block of order 4 at 16, whose links overwrite the header byte
-- of the free block of order 5 at 32.
theorem alloc_one_overwrites_header : ∃ s, (system Bytes 4096 4096).Reachable s ∧
    s.allocator.memory 32 = 0xFF#8 ∧ ∀ free used, ¬ BytesIntact s 4096 free used := by
  have step := Run.Step.alloc ⟨freshPool, []⟩ 1
  have result : (alloc freshPool 1).1 = some 4112 := by decide +kernel
  rw [result] at step
  have written : (poolAfter 1).allocator.memory 32 = 0xFF#8 := by decide +kernel
  have head : (poolAfter 1).allocator.bins 1 = 32 := by decide +kernel
  refine ⟨poolAfter 1, .step (.start ⟨_, rfl⟩) step, written, fun free used intact => ?_⟩
  obtain ⟨cells, list, _, exact⟩ := intact.consistent.bins 1 (by decide)
  have start := list.forward.head_eq
  rw [head] at start
  have block := (exact 32).mp (List.mem_of_mem_head? start.symm)
  have byte := intact.freeByte _ block
  rw [written] at byte
  exact absurd byte (by decide)

end ElySquare.Buddy
