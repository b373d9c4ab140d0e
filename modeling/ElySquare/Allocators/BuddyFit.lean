import Mathlib.Data.Set.Card
import Mathlib.Order.Interval.Finset.Nat
import ElySquare.Allocators.BuddyCoalescing

set_option autoImplicit false

namespace ElySquare.Buddy

open Dyadic Linked Transition

namespace Pool

variable {p : Pool}

theorem firstFit_some (t f : Nat) : p.firstFit t = some f ↔
    t ≤ f ∧ f ≤ maxOrder ∧ p.bins f ≠ [] ∧ ∀ k, t ≤ k → k < f → p.bins k = [] := by
  unfold firstFit
  rw [List.find?_range'_eq_some, List.mem_range'_1]
  simp only [ne_eq, decide_not, Bool.not_eq_true', decide_eq_false_iff_not, Bool.not_not,
    decide_eq_true_eq]
  constructor
  · rintro ⟨nonempty, ⟨above, below⟩, before⟩
    exact ⟨above, by omega, nonempty, before⟩
  · rintro ⟨above, below, nonempty, before⟩
    exact ⟨nonempty, ⟨above, by omega⟩, before⟩

theorem firstFit_none (t : Nat) :
    p.firstFit t = none ↔ ∀ k, t ≤ k → k ≤ maxOrder → p.bins k = [] := by
  unfold firstFit
  rw [List.find?_eq_none]
  simp only [ne_eq, decide_not, Bool.not_eq_true', decide_eq_false_iff_not, Decidable.not_not,
    List.mem_range'_1]
  exact ⟨fun none k above below => none k ⟨above, by omega⟩,
    fun none k inside => none k inside.1 (by omega)⟩

theorem alloc_cases (p : Pool) (size : Nat) :
    (p.alloc size = (none, p) ∧ ((size = 0 ∨ weCantPutIt size = true) ∨
      ∀ k, sizeToOrder size ≤ k → k ≤ maxOrder → p.bins k = [])) ∨
    ∃ offset rest f, ¬ (size = 0 ∨ weCantPutIt size = true) ∧
      p.firstFit (sizeToOrder size) = some f ∧ p.bins f = offset :: rest ∧
      p.alloc size = (some ⟨offset, sizeToOrder size⟩,
        { (p.take ⟨offset, f⟩).split offset f (sizeToOrder size) with
          live := ⟨offset, sizeToOrder size⟩ :: p.live }) := by
  unfold alloc
  by_cases refused : size = 0 ∨ weCantPutIt size = true
  · exact .inl ⟨if_pos refused, .inl refused⟩
  rw [if_neg refused]
  cases fit : p.firstFit (sizeToOrder size) with
  | none => exact .inl ⟨by simp only [fit], .inr ((firstFit_none _).mp fit)⟩
  | some f =>
      obtain ⟨_, _, nonempty, _⟩ := (firstFit_some _ f).mp fit
      obtain ⟨offset, rest, cells⟩ := List.exists_cons_of_ne_nil nonempty
      refine .inr ⟨offset, rest, f, refused, rfl, cells, ?_⟩
      simp only [fit, cells, List.head?_cons, (split_fields _ _ _ _).2.2]
      rfl

-- The upper halves that a split from order `f` down to order `t` frees.
def halves (offset t f : Nat) : Set Block := {b | ∃ k, t ≤ k ∧ k < f ∧ b = ⟨offset + 2 ^ k, k⟩}

theorem halves_none (offset t f : Nat) (few : f ≤ t) : halves offset t f = ∅ := by
  refine Set.eq_empty_of_forall_notMem ?_
  rintro b ⟨k, above, below, _⟩
  omega

theorem halves_succ (offset t f : Nat) (more : t ≤ f) :
    halves offset t (f + 1) = insert ⟨offset + 2 ^ f, f⟩ (halves offset t f) := by
  ext b
  constructor
  · rintro ⟨k, above, below, rfl⟩
    rcases Nat.lt_succ_iff_lt_or_eq.mp below with less | rfl
    · exact .inr ⟨k, above, less, rfl⟩
    · exact .inl rfl
  · rintro (rfl | ⟨k, above, below, rfl⟩)
    · exact ⟨f, more, Nat.lt_succ_self f, rfl⟩
    · exact ⟨k, above, Nat.lt_succ_of_lt below, rfl⟩

theorem split_free (p : Pool) (offset t f : Nat) (aligned : Block.Aligned ⟨offset, f⟩) :
    (p.split offset f t).free = p.free ∪ halves offset t f := by
  induction f generalizing p with
  | zero => rw [split, halves_none offset t 0 (Nat.zero_le t), Set.union_empty]
  | succ f ih =>
      have smaller : Block.Aligned ⟨offset, f⟩ := Block.lower_aligned ⟨offset, f + 1⟩ aligned
      have half := Block.buddy_upper offset (f + 1) f aligned (Nat.lt_succ_self f)
      unfold split
      split
      next more =>
        rw [ih _ smaller, free_push, half, halves_succ offset t f more, Set.insert_union,
          Set.union_insert]
      next few => rw [halves_none offset t (f + 1) (by omega), Set.union_empty]

theorem cut_free (valid : p.Valid minOrder p.inUse) (size offset f : Nat)
    (member : (⟨offset, f⟩ : Block) ∈ p.free) :
    ((p.take ⟨offset, f⟩).split offset f (sizeToOrder size)).free =
      p.free \ {⟨offset, f⟩} ∪ halves offset (sizeToOrder size) f := by
  rw [split_free _ _ _ _ (valid.tiling.aligned _ (.inl member)), free_take _ _ (valid.nodup _)]

theorem halves_fresh (valid : p.Valid minOrder p.inUse) (t offset f : Nat)
    (member : (⟨offset, f⟩ : Block) ∈ p.free) (b : Block) (half : b ∈ halves offset t f) :
    b ∉ p.free := by
  obtain ⟨k, _, below, rfl⟩ := half
  intro also
  have grown := Nat.pow_le_pow_right (n := 2) (by omega) (show k + 1 ≤ f from below)
  have double := Nat.pow_succ 2 k
  have positive := Nat.two_pow_pos k
  have same := valid.tiling.apart _ (.inl also) _ (.inl member) (offset + 2 ^ k)
    (Block.covers_start _) ⟨Nat.le_add_right _ _, by unfold Block.finish; dsimp only; omega⟩
  have order := congrArg Block.order same
  dsimp only at order
  omega

end Pool

def freeSpace {Memory : Type} [HeaderStore Memory] (a : BuddyAllocator Memory) : Set Nat :=
  {x | ∃ b ∈ binBlocks a, b.Covers x}

noncomputable def freeBytes (a : BuddyAllocator Headers) : Nat := (freeSpace a).ncard

structure Carved (s t : Run Headers) (b : Block) (target ptr : Nat) : Prop where
  found : b ∈ binBlocks s.allocator
  enough : target ≤ b.order
  smallest : ∀ c ∈ binBlocks s.allocator, target ≤ c.order → b.order ≤ c.order
  pointer_eq : ptr = pointer s.allocator ⟨b.offset, target⟩
  header_eq : (header t.allocator.memory b.offset).order = target ∧
    (header t.allocator.memory b.offset).isFree = false
  live : liveBlocks t = insert ⟨b.offset, target⟩ (liveBlocks s)
  free : binBlocks t.allocator = binBlocks s.allocator \ {b} ∪ Pool.halves b.offset target b.order
  fresh : ∀ c ∈ Pool.halves b.offset target b.order, c ∉ binBlocks s.allocator
  untouched : ∀ c ∈ binBlocks s.allocator, c ≠ b →
    (header t.allocator.memory c.offset).order = c.order ∧
      (header t.allocator.memory c.offset).isFree = true
  bytes : freeBytes t.allocator + 2 ^ target = freeBytes s.allocator

theorem weCantPutIt_fits (size : Nat) (fits : size ≤ 2 ^ maxOrder - headerSize) :
    weCantPutIt size = false := by
  have span : headerSize ≤ 2 ^ maxOrder := by decide
  have small : 2 ^ maxOrder < 2 ^ 64 := by decide
  unfold weCantPutIt
  rw [Nat.mod_eq_of_lt (by omega), decide_eq_false_iff_not]
  omega

section Bytes

variable {top : Nat} {free used : Set Block}

theorem free_space (tiling : Tiling top (free ∪ used)) (separate : Disjoint free used) (x : Nat) :
    (∃ b ∈ free, b.Covers x) ↔ x < 2 ^ top ∧ ∀ b ∈ used, ¬ b.Covers x := by
  constructor
  · rintro ⟨b, member, here⟩
    have inside := tiling.inside b (.inl member)
    refine ⟨Nat.lt_of_lt_of_le here.2 inside, fun c taken there => ?_⟩
    have same := tiling.apart b (.inl member) c (.inr taken) x here there
    exact Set.disjoint_left.mp separate member (same ▸ taken)
  · rintro ⟨inside, outside⟩
    obtain ⟨b, member | taken, here⟩ := tiling.cover x inside
    · exact ⟨b, member, here⟩
    · exact (outside b taken here).elim

theorem covered_ncard (b : Block) : {x | b.Covers x}.ncard = 2 ^ b.order := by
  have range : {x | b.Covers x} = ↑(Finset.Ico b.offset b.finish) := by
    ext x
    simp [Block.Covers]
  rw [range, Set.ncard_coe_finset, Nat.card_Ico, Block.finish, Nat.add_sub_cancel_left]

theorem bytes_taken {free' : Set Block} (tiling : Tiling top (free ∪ used))
    (separate : Disjoint free used) (c : Block) (new : c ∉ used)
    (tiling' : Tiling top (free' ∪ insert c used)) (separate' : Disjoint free' (insert c used)) :
    {x | ∃ b ∈ free', b.Covers x}.ncard + 2 ^ c.order = {x | ∃ b ∈ free, b.Covers x}.ncard := by
  have before := free_space tiling separate
  have after := free_space tiling' separate'
  have parts : {x | ∃ b ∈ free, b.Covers x} = {x | ∃ b ∈ free', b.Covers x} ∪ {x | c.Covers x} := by
    ext x
    simp only [Set.mem_union, Set.mem_ofPred_eq]
    rw [before, after]
    constructor
    · rintro ⟨inside, outside⟩
      by_cases here : c.Covers x
      · exact .inr here
      · refine .inl ⟨inside, ?_⟩
        rintro b (rfl | member)
        · exact here
        · exact outside b member
    · rintro (⟨inside, outside⟩ | here)
      · exact ⟨inside, fun b member => outside b (.inr member)⟩
      · refine ⟨Nat.lt_of_lt_of_le here.2 (tiling'.inside c (.inr (.inl rfl))), fun b member there => ?_⟩
        have same := tiling'.apart b (.inr (.inr member)) c (.inr (.inl rfl)) x there here
        exact new (same ▸ member)
  have apart : Disjoint {x | ∃ b ∈ free', b.Covers x} {x | c.Covers x} := by
    refine Set.disjoint_left.mpr fun x covered here => ?_
    exact ((after x).mp covered).2 c (.inl rfl) here
  have bounded : {x | ∃ b ∈ free', b.Covers x}.Finite :=
    (Set.finite_lt_nat (2 ^ top)).subset fun x covered => ((after x).mp covered).1
  have range : {x | c.Covers x}.Finite :=
    (Set.finite_lt_nat c.finish).subset fun x here => here.2
  rw [parts, Set.ncard_union_eq apart bounded range, covered_ncard]

end Bytes

section Served

variable {Memory : Type} [HeaderStore Memory] {extent low size : Nat} {s : Run Memory} {p : Pool}

def allocated (s : Run Memory) (request : Nat) : Run Memory :=
  ⟨(alloc s.allocator request).2, handOut s.live request (alloc s.allocator request).1⟩

theorem alloc_null (a : BuddyAllocator Memory) (request : Nat)
    (null : (alloc a request).1 = none) : (alloc a request).2 = a := by
  unfold alloc at *
  dsimp only at *
  split at null
  next refused => rw [if_pos refused]
  next accepted =>
    rw [if_neg accepted]
    split at null
    next empty => rw [if_pos empty]
    next => cases null

theorem alloc_some_iff (laws : LawfulStore Memory extent) (room : extent ≤ 2 ^ low)
    (related : Related low size s p) (request : Nat) (allowed : Allowed low s (.alloc request))
    (accepted : ¬ (request = 0 ∨ weCantPutIt request = true)) :
    (alloc s.allocator request).1 ≠ none ↔
      ∃ b ∈ binBlocks s.allocator, sizeToOrder request ≤ b.order := by
  have valid := related.represents.valid
  rw [(alloc_represents laws room related.represents request allowed).1, related.consistent.binBlocks_eq]
  rcases Pool.alloc_cases p request with ⟨none', why⟩ | ⟨offset, rest, f, _, fit, cells, cut⟩
  · rw [none']
    refine iff_of_false (fun some' => some' rfl) ?_
    rintro ⟨b, member, large⟩
    have empty := why.resolve_left accepted b.order large (valid.order_le b (.inl member))
    have listed : b.offset ∈ p.bins b.order := member
    rw [empty] at listed
    cases listed
  · rw [cut]
    obtain ⟨enough, _⟩ := (Pool.firstFit_some _ f).mp fit
    refine iff_of_true (Option.some_ne_none _) ⟨⟨offset, f⟩, ?_, enough⟩
    change offset ∈ p.bins f
    rw [cells]
    exact List.mem_cons_self

end Served

section Alloc

variable {size : Nat} {s : Run Headers} {p : Pool}

theorem allocated_related (related : Related minOrder size s p) (request : Nat) :
    Related minOrder size (allocated s request) (p.alloc request).2 :=
  related_alloc headers_lawful (by decide) size s p request related (.inl (sizeToOrder_ge request))

theorem alloc_pointer (related : Related minOrder size s p) (request : Nat) :
    (alloc s.allocator request).1 = (p.alloc request).1.map (pointer s.allocator) :=
  (alloc_represents headers_lawful (by decide) related.represents request
    (.inl (sizeToOrder_ge request))).1

theorem carved_of_alloc (related : Related minOrder size s p) (request ptr : Nat)
    (made : (alloc s.allocator request).1 = some ptr) :
    ∃ b, Carved s (allocated s request) b (sizeToOrder request) ptr := by
  have related' := allocated_related related request
  have result := alloc_pointer related request
  rw [made] at result
  rcases Pool.alloc_cases p request with ⟨none', _⟩ | ⟨offset, rest, f, _, fit, cells, cut⟩
  · rw [none'] at result
    cases result
  rw [cut] at result related'
  obtain ⟨enough, _, _, before⟩ := (Pool.firstFit_some _ f).mp fit
  have valid := related.represents.valid
  have member : (⟨offset, f⟩ : Block) ∈ p.free := by
    change offset ∈ p.bins f
    rw [cells]
    exact List.mem_cons_self
  have consistent := related.consistent
  have consistent' := related'.consistent
  have live : p.inUse = liveBlocks s := consistent.liveBlocks_eq.symm
  have used : ({ (p.take ⟨offset, f⟩).split offset f (sizeToOrder request) with
      live := ⟨offset, sizeToOrder request⟩ :: p.live } : Pool).inUse =
      insert ⟨offset, sizeToOrder request⟩ p.inUse := by
    ext c
    simp [Pool.inUse]
  have free := Pool.cut_free valid request offset f member
  have free' : ({ (p.take ⟨offset, f⟩).split offset f (sizeToOrder request) with
      live := ⟨offset, sizeToOrder request⟩ :: p.live } : Pool).free =
      p.free \ {⟨offset, f⟩} ∪ Pool.halves offset (sizeToOrder request) f := free
  have new : (⟨offset, sizeToOrder request⟩ : Block) ∉ p.inUse :=
    (List.nodup_cons.mp related'.represents.liveNodup).1
  rw [used, free'] at consistent'
  have header := consistent'.usedHeader ⟨offset, sizeToOrder request⟩ (.inl rfl)
  refine ⟨⟨offset, f⟩, ?_, enough, ?_, Option.some.inj result, header, ?_, ?_, ?_, ?_, ?_⟩
  · rw [consistent.binBlocks_eq]
    exact member
  · intro c inside large
    rw [consistent.binBlocks_eq] at inside
    by_contra small
    have empty := before c.order large (Nat.lt_of_not_le small)
    have listed : c.offset ∈ p.bins c.order := inside
    rw [empty] at listed
    cases listed
  · rw [consistent'.liveBlocks_eq, live]
  · rw [consistent'.binBlocks_eq, consistent.binBlocks_eq]
  · rw [consistent.binBlocks_eq]
    exact Pool.halves_fresh valid _ offset f member
  · intro c inside different
    rw [consistent.binBlocks_eq] at inside
    exact consistent'.freeHeader c (.inl ⟨inside, different⟩)
  · unfold freeBytes freeSpace
    rw [consistent'.binBlocks_eq, consistent.binBlocks_eq]
    exact bytes_taken consistent.tiling consistent.separate _ new consistent'.tiling
      consistent'.separate

theorem alloc_best_fit (chunkptr size : Nat) (s : Run Headers)
    (reached : (system Headers chunkptr size).Reachable s) (request : Nat) (positive : 1 ≤ request)
    (fits : request ≤ 2 ^ maxOrder - headerSize) :
    ((alloc s.allocator request).1 ≠ none ↔
      ∃ b ∈ binBlocks s.allocator, sizeToOrder request ≤ b.order) ∧
    ((alloc s.allocator request).1 = none → (alloc s.allocator request).2 = s.allocator) ∧
    ∀ ptr, (alloc s.allocator request).1 = some ptr →
      ∃ b, Carved s (allocated s request) b (sizeToOrder request) ptr := by
  obtain ⟨p, related⟩ := related_of_run chunkptr size s reached
  have accepted : ¬ (request = 0 ∨ weCantPutIt request = true) := by
    rw [weCantPutIt_fits request fits]
    rintro (zero | refused)
    · omega
    · cases refused
  exact ⟨alloc_some_iff headers_lawful (by decide) related request (.inl (sizeToOrder_ge request)) accepted,
    alloc_null s.allocator request, carved_of_alloc related request⟩

theorem alloc_best_fit_hundred :
    ∃ b, Carved poolWithHundred (allocated poolWithHundred 200) b (sizeToOrder 200) 4368 :=
  (alloc_best_fit 4096 4096 poolWithHundred poolWithHundred_reachable 200 (by decide)
    (by decide)).2.2 4368 (by decide +kernel)

theorem alloc_eq_null_iff (a : BuddyAllocator Headers) (request : Nat) :
    alloc a request = (none, a) ↔ (alloc a request).1 = none :=
  ⟨fun same => congrArg Prod.fst same, fun null => Prod.ext null (alloc_null a request null)⟩

theorem sizeToOrder_large (request : Nat) (large : 2 ^ maxOrder - headerSize < request) :
    sizeToOrder request = maxOrder := by
  refine Nat.le_antisymm (sizeToOrder_le request) (Nat.le_of_not_lt fun small => ?_)
  have holds := size_le_two_pow request (.inl small)
  have half := Nat.pow_le_pow_right (n := 2) (by omega) (Nat.le_sub_one_of_lt small)
  have room : 2 ^ (maxOrder - 1) ≤ 2 ^ maxOrder - headerSize := by decide
  omega

theorem oversized_refused (chunkptr size : Nat) (s : Run Headers)
    (reached : (system Headers chunkptr size).Reachable s) (request : Nat)
    (large : 2 ^ maxOrder - headerSize < request) (bound : request < 2 ^ 64) :
    alloc s.allocator request = (none, s.allocator) ↔
      request + headerSize < 2 ^ 64 ∨ ∀ b ∈ binBlocks s.allocator, b.order ≠ maxOrder := by
  obtain ⟨p, related⟩ := related_of_run chunkptr size s reached
  have span : headerSize ≤ 2 ^ maxOrder := by decide
  rw [alloc_eq_null_iff]
  by_cases room : request + headerSize < 2 ^ 64
  · have refused : weCantPutIt request = true := by
      unfold weCantPutIt
      rw [Nat.mod_eq_of_lt room, decide_eq_true_eq]
      omega
    refine iff_of_true ?_ (.inl room)
    rw [alloc, if_pos (.inr refused)]
  · -- the sum wraps to less than a header
    have wrapped : weCantPutIt request = false := by
      have rest : (request + headerSize) % 2 ^ 64 = request + headerSize - 2 ^ 64 := by
        rw [Nat.mod_eq_sub_mod (Nat.le_of_not_lt room), Nat.mod_eq_of_lt]
        unfold headerSize
        omega
      unfold weCantPutIt
      rw [rest, decide_eq_false_iff_not]
      omega
    have accepted : ¬ (request = 0 ∨ weCantPutIt request = true) := by
      rw [wrapped]
      rintro (zero | refused)
      · omega
      · cases refused
    have some' := alloc_some_iff headers_lawful (by decide) related request (.inl (sizeToOrder_ge request))
      accepted
    rw [sizeToOrder_large request large] at some'
    rw [or_iff_right room, ← not_iff_not, ← ne_eq, some']
    push Not
    refine exists_congr fun b => and_congr_right fun member => ?_
    rw [related.consistent.binBlocks_eq] at member
    exact ⟨fun high => Nat.le_antisymm (related.represents.valid.order_le b (.inl member)) high,
      fun same => Nat.le_of_eq same.symm⟩

def wholePool : Run Headers := ⟨construct 4096 4194304 blankHeaders, []⟩

theorem wholePool_reachable : (system Headers 4096 4194304).Reachable wholePool :=
  .start ⟨blankHeaders, rfl⟩

theorem oversized_refused_five : alloc wholePool.allocator 5000000 = (none, wholePool.allocator) :=
  (oversized_refused 4096 4194304 wholePool wholePool_reachable 5000000 (by decide)
    (by decide)).mpr (.inl (by decide))

theorem oversized_served : (system Headers 4096 4194304).Reachable wholePool ∧
    (alloc wholePool.allocator 18446744073709551615).1 = some 4112 :=
  ⟨wholePool_reachable, by decide +kernel⟩

end Alloc

end ElySquare.Buddy
