import ElySquare.Shared.PrivateArrays
import ElySquare.Shared.Simulation
import ElySquare.Allocators.BuddyFrames
import ElySquare.Allocators.BuddyPayload

set_option autoImplicit false

namespace ElySquare.Buddy

open Dyadic Transition Bytes

def Call.Roomy : Call → Prop
  | .alloc size => ¬ Cramped size
  | .free _ => True

/-- An owner writes to what it was given and has not freed, at any byte that it asked for. -/
inductive OwnerStep : Run Bytes → Act → Run Bytes → Prop
  | call (s t : Run Bytes) (call : Call) (roomy : call.Roomy) (taken : Run.Step s call t) :
      OwnerStep s (.call call) t
  | write (s : Run Bytes) (e : Allocation) (i : Nat) (byte : BitVec 8) (alive : e ∈ s.live)
      (inside : i < e.size) : OwnerStep s (.write e.ptr i byte) (writeByte s e.ptr i byte)

def owners (chunkptr size : Nat) : System (Run Bytes) Act where
  start s := ∃ memory : Bytes, s = ⟨construct chunkptr size memory, []⟩
  step := OwnerStep

def bytesOf (s : Run Bytes) (e : Allocation) : List (BitVec 8) :=
  (List.range e.size).map fun i => s.allocator.memory (ptrToOffset s.allocator e.ptr + i)

def contents (s : Run Bytes) : PrivateArrays Nat (BitVec 8) := fun ptr =>
  (s.live.find? fun e => e.ptr = ptr).map (bytesOf s)

def Act.order : Act → PrivateArrays.Order Nat (BitVec 8)
  | .call (.alloc size) => .make size
  | .call (.free ptr) => .drop ptr
  | .write ptr i byte => .write ptr i byte

def Act.onRecords : Act → Option Call
  | .call asked => some asked
  | .write _ _ _ => none

structure Mirrors (size : Nat) (s : Run Bytes) (r : Run Headers) : Prop where
  live : s.live = r.live
  base : s.allocator.base = r.allocator.base
  intact : BytesIntact s size (binBlocks r.allocator) (liveBlocks r)

/-- The invariant behind both readings: one pool of blocks stands behind the bytes and the records. -/
structure Mirrored (chunkptr size : Nat) (s : Run Bytes) (r : Run Headers) (p : Pool) : Prop where
  reached : ((system Headers chunkptr size).restrict Roomy).Reachable r
  bytes : Related 5 size s p
  records : Related minOrder size r p
  live : s.live = r.live
  base : s.allocator.base = r.allocator.base

section Payloads

variable {size : Nat} {s t : Run Bytes} {p : Pool}

structure Lodges (s : Run Bytes) (e : Allocation) (b : Dyadic.Block) : Prop where
  ptr : e.ptr = pointer s.allocator b
  room : headerSize + e.size ≤ 2 ^ b.order

theorem Lodges.covers {e : Allocation} {b : Dyadic.Block} (lodges : Lodges s e b) (i : Nat) (inside : i < e.size) :
    b.Covers (ptrToOffset s.allocator e.ptr + i) ∧
      b.offset + headerSize ≤ ptrToOffset s.allocator e.ptr + i := by
  obtain ⟨ptr, room⟩ := lodges
  unfold Dyadic.Block.Covers Dyadic.Block.finish ptrToOffset pointer at *
  omega

theorem Related.lodged {low : Nat} (related : Related low size s p) (e : Allocation) (alive : e ∈ s.live)
    (fits : headerSize + e.size ≤ 2 ^ sizeToOrder e.size) : ∃ b ∈ p.live, Lodges s e b := by
  obtain ⟨b, inUse, ptr, order⟩ := related.tracks.block e alive
  exact ⟨b, inUse, ptr, order ▸ fits⟩

theorem bytesOf_congr (e : Allocation) (b : Dyadic.Block) (lodges : Lodges s e b)
    (base : t.allocator.base = s.allocator.base)
    (same : ∀ x, b.Covers x → t.allocator.memory x = s.allocator.memory x) : bytesOf t e = bytesOf s e := by
  refine List.map_congr_left fun i member => ?_
  have offset : ptrToOffset t.allocator e.ptr = ptrToOffset s.allocator e.ptr := by
    unfold ptrToOffset
    rw [base]
  rw [offset]
  exact same _ (lodges.covers i (List.mem_range.mp member)).1

@[simp] theorem bytesOf_length (s : Run Bytes) (e : Allocation) : (bytesOf s e).length = e.size := by
  simp [bytesOf]

theorem bytesOf_written (s : Run Bytes) (e : Allocation) (i : Nat) (byte : BitVec 8) :
    bytesOf (writeByte s e.ptr i byte) e = (bytesOf s e).set i byte := by
  refine List.ext_getElem (by simp) fun j here _ => ?_
  have offset : ptrToOffset (writeByte s e.ptr i byte).allocator e.ptr = ptrToOffset s.allocator e.ptr := rfl
  simp only [bytesOf, List.getElem_map, List.getElem_range, List.getElem_set, offset]
  by_cases same : i = j
  · subst same
    rw [if_pos rfl]
    exact setByte_here _ _ _
  · rw [if_neg same]
    exact setByte_there _ _ _ _ (by omega)

end Payloads

section Steps

variable {chunkptr size : Nat} {s t : Run Bytes} {r : Run Headers} {p : Pool}

-- A size that leaves room for the header asks for no block of the smallest order.
theorem notTiny_of_roomy (s : Run Bytes) (request : Nat) (roomy : ¬ Cramped request) :
    NotTiny s (.alloc request) := by
  by_cases small : request ≤ 2 ^ minOrder
  · refine .inr (.inl ?_)
    by_contra positive
    exact roomy (.inl ⟨minOrder, Nat.le_refl _, by decide, small, by unfold headerSize minOrder; omega⟩)
  · exact .inl (Nat.lt_of_not_le small)

namespace Mirrored

theorem lodged (mirrored : Mirrored chunkptr size s r p) (e : Allocation) (alive : e ∈ s.live) :
    ∃ b ∈ p.live, Lodges s e b :=
  mirrored.bytes.lodged e alive
    (fits_of_reachable chunkptr size r mirrored.reached e (mirrored.live ▸ alive)).2

theorem mirrors (mirrored : Mirrored chunkptr size s r p) : Mirrors size s r where
  live := mirrored.live
  base := mirrored.base
  intact := by
    rw [mirrored.records.consistent.binBlocks_eq, mirrored.records.consistent.liveBlocks_eq]
    exact mirrored.bytes.bytesIntact

theorem alloc (mirrored : Mirrored chunkptr size s r p) (request : Nat) (roomy : ¬ Cramped request) :
    Mirrored chunkptr size
      ⟨(alloc s.allocator request).2, handOut s.live request (alloc s.allocator request).1⟩
      ⟨(Buddy.alloc r.allocator request).2, handOut r.live request (Buddy.alloc r.allocator request).1⟩
      (p.alloc request).2 := by
  obtain ⟨reached, bytes, records, live, base⟩ := mirrored
  have allowed : Allowed 5 s (.alloc request) := (notTiny_of_roomy s request roomy).allowed
  have allowed' : Allowed minOrder r (.alloc request) := .inl (sizeToOrder_ge request)
  obtain ⟨made, _, base'⟩ := alloc_represents bytes_lawful (by decide) bytes.represents request allowed
  obtain ⟨made', _, base''⟩ := alloc_represents headers_lawful (by decide) records.represents request allowed'
  have taken : ((system Headers chunkptr size).restrict Roomy).step r (.alloc request) _ :=
    ⟨roomy, .alloc r request⟩
  refine ⟨reached.step taken, related_alloc bytes_lawful (by decide) size s p request bytes allowed,
    related_alloc headers_lawful (by decide) size r p request records allowed', ?_, ?_⟩
  · rw [made, made', live, base]
  · exact base'.trans (base.trans base''.symm)

theorem free (mirrored : Mirrored chunkptr size s r p) (b : Dyadic.Block) (member : b ∈ p.live) :
    Mirrored chunkptr size
      ⟨free s.allocator (pointer s.allocator b), s.live.filter (·.ptr ≠ pointer s.allocator b)⟩
      ⟨Buddy.free r.allocator (pointer s.allocator b), r.live.filter (·.ptr ≠ pointer s.allocator b)⟩
      (p.release b) := by
  obtain ⟨reached, bytes, records, live, base⟩ := mirrored
  have same : pointer s.allocator b = pointer r.allocator b := by
    unfold pointer
    rw [base]
  have alive : pointer s.allocator b ∈ r.live.map Allocation.ptr := by
    rw [same]
    exact (records.tracks.ptr_mem _).mpr ⟨b, member, rfl⟩
  obtain ⟨_, base'⟩ := free_represents bytes_lawful (by decide) bytes.represents b member
  have base'' : (Buddy.free r.allocator (pointer s.allocator b)).base = r.allocator.base := by
    rw [same]
    exact (free_represents headers_lawful (by decide) records.represents b member).2
  have taken : ((system Headers chunkptr size).restrict Roomy).step r (.free (pointer s.allocator b)) _ :=
    ⟨trivial, .free r _ alive⟩
  refine ⟨reached.step taken, related_free bytes_lawful (by decide) size s p b member bytes,
    ?_, ?_, ?_⟩
  · rw [same]
    exact related_free headers_lawful (by decide) size r p b member records
  · rw [live]
  · exact base'.trans (base.trans base''.symm)

theorem write (mirrored : Mirrored chunkptr size s r p) (e : Allocation) (alive : e ∈ s.live) (i : Nat)
    (inside : i < e.size) (byte : BitVec 8) : Mirrored chunkptr size (writeByte s e.ptr i byte) r p := by
  obtain ⟨b, inUse, lodges⟩ := mirrored.lodged e alive
  obtain ⟨covers, past⟩ := lodges.covers i inside
  exact ⟨mirrored.reached, mirrored.bytes.write e.ptr i byte b inUse covers past, mirrored.records, mirrored.live,
    mirrored.base⟩

end Mirrored

theorem find_bytes (s t : Run Bytes) (live : List Allocation) (same : ∀ e ∈ live, bytesOf t e = bytesOf s e)
    (ptr : Nat) : (live.find? fun e => e.ptr = ptr).map (bytesOf t) =
      (live.find? fun e => e.ptr = ptr).map (bytesOf s) := by
  cases found : live.find? fun e => e.ptr = ptr with
  | none => rfl
  | some e => exact congrArg some (same e (List.mem_of_find?_eq_some found))

theorem contents_alive (distinct : (s.live.map Allocation.ptr).Nodup) (e : Allocation) (alive : e ∈ s.live) :
    contents s e.ptr = some (bytesOf s e) := by
  unfold contents
  cases found : s.live.find? fun f => f.ptr = e.ptr with
  | none => simpa using List.find?_eq_none.mp found e alive
  | some f =>
      have same : f.ptr = e.ptr := by simpa using List.find?_some found
      rw [List.inj_on_of_nodup_map distinct (List.mem_of_find?_eq_some found) alive same]
      rfl

theorem contents_gone (ptr : Nat) (gone : ptr ∉ s.live.map Allocation.ptr) : contents s ptr = none := by
  have none : (s.live.find? fun e => e.ptr = ptr) = none :=
    List.find?_eq_none.mpr fun e alive same => gone (List.mem_map.mpr ⟨e, alive, by simpa using same⟩)
  rw [contents, none]
  rfl

theorem contents_refused (live : t.live = s.live) (same : ∀ e ∈ s.live, bytesOf t e = bytesOf s e) :
    contents t = contents s := by
  funext ptr
  rw [contents, live]
  exact find_bytes s t s.live same ptr

theorem contents_made (e : Allocation) (live : t.live = e :: s.live)
    (same : ∀ e ∈ s.live, bytesOf t e = bytesOf s e) :
    contents t = Function.update (contents s) e.ptr (some (bytesOf t e)) := by
  funext ptr
  rw [contents, live, List.find?_cons]
  by_cases here : e.ptr = ptr
  · subst here
    simp
  · rw [Function.update_of_ne (Ne.symm here)]
    simp only [here, decide_false]
    exact find_bytes s t s.live same ptr

theorem contents_dropped (ptr : Nat) (live : t.live = s.live.filter (·.ptr ≠ ptr))
    (same : ∀ e ∈ t.live, bytesOf t e = bytesOf s e) :
    contents t = Function.update (contents s) ptr none := by
  funext q
  by_cases here : q = ptr
  · subst here
    rw [Function.update_self]
    refine contents_gone q ?_
    rw [live]
    simp
  · have kept : (t.live.find? fun e => e.ptr = q) = s.live.find? fun e => e.ptr = q := by
      rw [live, List.find?_filter]
      congr 1
      funext e
      by_cases found : e.ptr = q
      · simp [found, here]
      · simp [found]
    rw [Function.update_of_ne here, contents, find_bytes s t t.live same q, kept]
    rfl

theorem contents_written (distinct : (s.live.map Allocation.ptr).Nodup) (e : Allocation) (alive : e ∈ s.live)
    (values : List (BitVec 8)) (live : t.live = s.live) (written : bytesOf t e = values)
    (same : ∀ f ∈ s.live, f ≠ e → bytesOf t f = bytesOf s f) :
    contents t = Function.update (contents s) e.ptr (some values) := by
  funext q
  by_cases here : q = e.ptr
  · subst here
    rw [Function.update_self, contents_alive (live ▸ distinct) e (live ▸ alive), written]
  · rw [Function.update_of_ne here, contents, live]
    cases found : s.live.find? fun f => f.ptr = q with
    | none => rw [contents, found]; rfl
    | some f =>
        have ptr : f.ptr = q := by simpa using List.find?_some found
        have other : f ≠ e := fun h => here (h ▸ ptr.symm)
        rw [contents, found, Option.map_some, same f (List.mem_of_find?_eq_some found) other]
        rfl

namespace Mirrored

theorem distinct (mirrored : Mirrored chunkptr size s r p) : (s.live.map Allocation.ptr).Nodup :=
  mirrored.bytes.consistent.distinct

theorem bytes_kept (mirrored : Mirrored chunkptr size s r p) (e : Allocation) (alive : e ∈ s.live)
    (base : t.allocator.base = s.allocator.base) (held : Set Dyadic.Block)
    (spares : Spares held s.allocator.memory t.allocator.memory)
    (within : ∀ b ∈ p.live, e.ptr = pointer s.allocator b → b ∈ held) : bytesOf t e = bytesOf s e := by
  obtain ⟨b, inUse, lodges⟩ := mirrored.lodged e alive
  exact bytesOf_congr e b lodges base (spares b (within b inUse lodges.ptr))

theorem contents_alloc (mirrored : Mirrored chunkptr size s r p) (request : Nat) (roomy : ¬ Cramped request) :
    PrivateArrays.Step (contents s) (.make request)
      (contents ⟨(Buddy.alloc s.allocator request).2, handOut s.live request (Buddy.alloc s.allocator request).1⟩) := by
  have allowed : Allowed 5 s (.alloc request) := (notTiny_of_roomy s request roomy).allowed
  have spares := alloc_spares (by decide) mirrored.bytes.represents request allowed
  have base := (alloc_represents bytes_lawful (by decide) mirrored.bytes.represents request allowed).2.2
  have distinct := (mirrored.alloc request roomy).distinct
  have kept (live : List Allocation) (e : Allocation) (alive : e ∈ s.live) :
      bytesOf ⟨(Buddy.alloc s.allocator request).2, live⟩ e = bytesOf s e :=
    mirrored.bytes_kept e alive base p.inUse spares fun b inUse _ => inUse
  cases made : (Buddy.alloc s.allocator request).1 with
  | none =>
      have same : contents ⟨(Buddy.alloc s.allocator request).2, s.live⟩ = contents s :=
        contents_refused rfl (kept s.live)
      rw [handOut, same]
      exact .refuse _ _
  | some ptr =>
      rw [made] at distinct
      have fresh : contents s ptr = none := contents_gone ptr (List.nodup_cons.mp distinct).1
      have step := PrivateArrays.Step.make (contents s) ptr
        (bytesOf ⟨(Buddy.alloc s.allocator request).2, ⟨ptr, request⟩ :: s.live⟩ ⟨ptr, request⟩) fresh
      rwa [bytesOf_length, ← contents_made (s := s) ⟨ptr, request⟩ rfl (kept _)] at step

theorem contents_free (mirrored : Mirrored chunkptr size s r p) (b : Dyadic.Block) (member : b ∈ p.live) :
    PrivateArrays.Step (contents s) (.drop (pointer s.allocator b))
      (contents ⟨Buddy.free s.allocator (pointer s.allocator b),
        s.live.filter (·.ptr ≠ pointer s.allocator b)⟩) := by
  have spares := free_spares (by decide) mirrored.bytes.represents b member
  have base := (free_represents bytes_lawful (by decide) mirrored.bytes.represents b member).2
  obtain ⟨e, alive, same⟩ := List.mem_map.mp ((mirrored.bytes.tracks.ptr_mem _).mpr ⟨b, member, rfl⟩)
  have there := contents_alive mirrored.distinct e alive
  rw [same] at there
  have step := PrivateArrays.Step.drop (contents s) _ _ there
  rwa [← contents_dropped (s := s) (t := ⟨Buddy.free s.allocator (pointer s.allocator b),
    s.live.filter (·.ptr ≠ pointer s.allocator b)⟩) (pointer s.allocator b) rfl fun f kept => ?_] at step
  obtain ⟨alive', other⟩ := List.mem_filter.mp kept
  refine mirrored.bytes_kept f alive' base _ spares fun c inUse ptr => List.mem_filter.mpr ⟨inUse, ?_⟩
  have different : c ≠ b := by
    rintro rfl
    simp [ptr] at other
  simpa using different

theorem contents_write (mirrored : Mirrored chunkptr size s r p) (e : Allocation) (alive : e ∈ s.live) (i : Nat)
    (inside : i < e.size) (byte : BitVec 8) :
    PrivateArrays.Step (contents s) (.write e.ptr i byte) (contents (writeByte s e.ptr i byte)) := by
  have there := contents_alive mirrored.distinct e alive
  have others (f : Allocation) (alive' : f ∈ s.live) (other : f ≠ e) :
      bytesOf (writeByte s e.ptr i byte) f = bytesOf s f := by
    obtain ⟨b, inUse, lodges⟩ := mirrored.lodged e alive
    obtain ⟨c, inUse', lodges'⟩ := mirrored.lodged f alive'
    refine bytesOf_congr f c lodges' rfl fun x here => setByte_there _ _ _ _ fun same => other ?_
    have tile := mirrored.bytes.represents.valid.tiling.apart c (.inr inUse') b (.inr inUse) x here
      (same ▸ (lodges.covers i inside).1)
    refine List.inj_on_of_nodup_map mirrored.distinct alive' alive ?_
    rw [lodges.ptr, lodges'.ptr, tile]
  rw [contents_written (t := writeByte s e.ptr i byte) mirrored.distinct e alive _ rfl
    (bytesOf_written s e i byte) others]
  exact .write _ _ _ _ _ there (by rwa [bytesOf_length])

end Mirrored

theorem start_mirrored (chunkptr size : Nat) (memory : Bytes) :
    Mirrored chunkptr size ⟨construct chunkptr size memory, []⟩ ⟨construct chunkptr size blankHeaders, []⟩
      (Pool.construct size) where
  reached := .start ⟨blankHeaders, rfl⟩
  bytes := related_start bytes_lawful (by decide) (by decide) (by decide) chunkptr size memory
  records := related_start headers_lawful (by decide) (Nat.le_refl minOrder) (by decide) chunkptr size blankHeaders
  live := rfl
  base := rfl

theorem Mirrored.step (mirrored : Mirrored chunkptr size s r p) (act : Act) (taken : OwnerStep s act t) :
    PrivateArrays.Step (contents s) act.order (contents t) ∧
      ∃ r' q, ((system Headers chunkptr size).restrict Roomy).idle.step r act.onRecords r' ∧
        Mirrored chunkptr size t r' q := by
  cases taken with
  | call t call roomy taken =>
      cases taken with
      | alloc request =>
          exact ⟨mirrored.contents_alloc request roomy, _, _, ⟨roomy, .alloc r request⟩,
            mirrored.alloc request roomy⟩
      | free ptr alive =>
          obtain ⟨b, member, rfl⟩ := (mirrored.bytes.tracks.ptr_mem ptr).mp alive
          refine ⟨mirrored.contents_free b member, _, _, ⟨trivial, .free r _ ?_⟩, mirrored.free b member⟩
          exact mirrored.live ▸ alive
  | write e i byte alive inside =>
      exact ⟨mirrored.contents_write e alive i inside byte, r, p, rfl, mirrored.write e alive i inside byte⟩

theorem owners_simulate_records (chunkptr size : Nat) :
    (owners chunkptr size).Simulates ((system Headers chunkptr size).restrict Roomy).idle
      (fun s r => ∃ p, Mirrored chunkptr size s r p) fun _ act => act.onRecords where
  start := by
    rintro s ⟨memory, rfl⟩
    exact ⟨_, ⟨blankHeaders, rfl⟩, _, start_mirrored chunkptr size memory⟩
  step := by
    rintro s r act t ⟨p, mirrored⟩ taken
    obtain ⟨_, r', q, move, mirrored'⟩ := mirrored.step act taken
    exact ⟨r', move, q, mirrored'⟩

theorem owners_simulate_arrays (chunkptr size : Nat) :
    (owners chunkptr size).Simulates (PrivateArrays.system Nat (BitVec 8))
      (fun s a => a = contents s ∧ ∃ r p, Mirrored chunkptr size s r p) fun _ act => act.order where
  start := by
    rintro s ⟨memory, rfl⟩
    exact ⟨_, fun _ => rfl, rfl, _, _, start_mirrored chunkptr size memory⟩
  step := by
    rintro s a act t ⟨rfl, r, p, mirrored⟩ taken
    obtain ⟨move, r', q, _, mirrored'⟩ := mirrored.step act taken
    exact ⟨_, move, rfl, r', q, mirrored'⟩

end Steps

theorem Mirrored.in_chunk {chunkptr size : Nat} {s : Run Bytes} {r : Run Headers} {p : Pool}
    (mirrored : Mirrored chunkptr size s r p) (fits : 2 ^ startOrder size ≤ pagesOf size * pageSize)
    (e : Allocation) (alive : e ∈ s.live) (i : Nat) (inside : i < e.size) :
    ptrToOffset s.allocator e.ptr + i < pagesOf size * pageSize := by
  obtain ⟨b, inUse, lodges⟩ := mirrored.lodged e alive
  have covered := (lodges.covers i inside).1.2
  have last := mirrored.bytes.consistent.tiling.inside b (.inr inUse)
  omega

theorem buddy_owners (chunkptr size : Nat) (bound : size < 2 ^ 64) (whole : Whole size) (s : Run Bytes)
    (reached : (owners chunkptr size).Reachable s) :
    (∀ e ∈ s.live, ∀ i < e.size, ptrToOffset s.allocator e.ptr + i < pagesOf size * pageSize) ∧
    (∃ r, ((system Headers chunkptr size).restrict Roomy).Reachable r ∧ Mirrors size s r ∧
      ∀ act t, OwnerStep s act t → ∃ r',
        ((system Headers chunkptr size).restrict Roomy).idle.step r act.onRecords r' ∧ Mirrors size t r') ∧
    (PrivateArrays.system Nat (BitVec 8)).Reachable (contents s) ∧
    (∀ act t, OwnerStep s act t → PrivateArrays.Step (contents s) act.order (contents t)) ∧
    ∀ ptr i byte t, (owners chunkptr size).Later (fun act => act.order.Spares ptr i) s t →
      (contents s).element ptr i = some byte → (contents t).element ptr i = some byte := by
  have records := owners_simulate_records chunkptr size
  have arrays := owners_simulate_arrays chunkptr size
  obtain ⟨r, made, p, mirrored⟩ := records.reachable reached
  obtain ⟨a, drawn, rfl, _⟩ := arrays.reachable reached
  refine ⟨mirrored.in_chunk (whole.startOrder_le bound), ⟨r, System.idle_reachable made, mirrored.mirrors, fun act t taken => ?_⟩, drawn,
    fun act t taken => (mirrored.step act taken).1, fun ptr i byte t later there => ?_⟩
  · obtain ⟨_, r', q, move, mirrored'⟩ := mirrored.step act taken
    exact ⟨r', move, mirrored'.mirrors⟩
  · obtain ⟨_, later', rfl, _⟩ := arrays.later (fun _ act spares => spares) later ⟨rfl, r, p, mirrored⟩
    exact PrivateArrays.element_later later' there

theorem buddy_owners_hundred : ∃ s, (owners 4096 4096).Reachable s ∧ (contents s).element 4112 3 = some 65#8 ∧
    ∀ t, OwnerStep s (.call (.alloc 100)) t → (contents t).element 4112 3 = some 65#8 := by
  have roomy : ¬ Cramped 100 := (header_fits_iff 100 (by decide)).mp (by decide)
  have taken := Run.Step.alloc ⟨freshPool, []⟩ 100
  have result : (alloc freshPool 100).1 = some 4112 := by decide +kernel
  rw [result] at taken
  have first : (owners 4096 4096).Reachable (poolAfter 100) :=
    .step (.start ⟨_, rfl⟩) (.call _ _ (.alloc 100) roomy taken)
  have written : OwnerStep (poolAfter 100) (.write 4112 3 65#8) (writeByte (poolAfter 100) 4112 3 65#8) :=
    .write (poolAfter 100) ⟨4112, 100⟩ 3 65#8 List.mem_cons_self (by decide)
  have whole : Whole 4096 := .inl ⟨0, by decide⟩
  obtain ⟨_, _, _, moves, _⟩ := buddy_owners 4096 4096 (by decide) whole _ first
  have there := PrivateArrays.Step.element_written (moves _ _ written)
  obtain ⟨_, _, _, _, stays⟩ := buddy_owners 4096 4096 (by decide) whole _ (first.step written)
  refine ⟨_, first.step written, there, fun t asked => stays 4112 3 _ t (.step (.now _) ?_ asked) there⟩
  exact (trivial : (Act.call (.alloc 100)).order.Spares 4112 3)

end ElySquare.Buddy
