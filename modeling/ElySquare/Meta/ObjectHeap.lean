import ElySquare.Shared.Meets
import ElySquare.Meta.Heap

set_option autoImplicit false

namespace ElySquare

theorem PageManager.requestPageChunk_starved (fuel pageCount : Nat) (manager : PageManager) :
    Meets (manager.requestPageChunk fuel pageCount) Stop.Starved fun _ => True := by
  induction fuel generalizing manager with
  | zero => exact (Meets.error_iff _).mpr trivial
  | succ fuel ih =>
      unfold requestPageChunk
      refine Meets.ite (fun _ => (Meets.ok_iff _).mpr trivial) fun _ => ?_
      split
      · exact (Meets.ok_iff _).mpr trivial
      · refine Meets.bind (?_ : Meets _ _ fun _ => True) fun manager _ => ih manager
        unfold newSegment
        split
        · exact (Meets.error_iff _).mpr trivial
        · exact (Meets.ok_iff _).mpr trivial

theorem Arena.newChunk_starved (manager : PageManager) (bytes : Nat) :
    Meets (newChunk manager bytes) Stop.Starved fun _ => True :=
  Meets.bind (manager.requestPageChunk_starved _ _) fun _ _ => (Meets.ok_iff _).mpr trivial

theorem Arena.Sound.alloc_starved {reservations : Nat → Option Nat} {manager : PageManager}
    {arena : Arena} {others : List PageManager.Chunk}
    (sound : Arena.Sound reservations manager arena others) (bytes alignment : Nat) :
    Meets (arena.alloc manager bytes alignment) Stop.Starved fun _ => True := by
  have last := sound.last
  have present : arena.current < arena.chunks.length := by omega
  unfold alloc
  rw [List.getElem?_eq_getElem present]
  dsimp only
  refine Meets.ite (fun _ => ?_) fun _ => (Meets.ok_iff _).mpr trivial
  exact Meets.bind (newChunk_starved _ _) fun _ _ => (Meets.ok_iff _).mpr trivial

namespace MetaArena

variable {Memory : Type} [LinkStore Memory]

theorem Sound.metalloc_starved {reservations : Nat → Option Nat} {w : World Memory}
    {others : List PageManager.Chunk} {live : List Block} {bins : Nat → List Nat}
    (sound : Sound reservations w others live bins) (size alignment : Nat) :
    Meets (metalloc w size alignment) Stop.Starved fun _ => True := by
  rcases metalloc_cases w size alignment with ⟨node, inside, picked, taken⟩ | bumped
  · rw [taken]
    have chain := sound.linked _ inside
    rw [picked] at chain
    have listed : node ∈ bins (getBucketIndex (alignSize size)) :=
      List.mem_of_mem_head? chain.head_eq.symm
    rw [sound.readable _ node inside listed]
    simp only [Result.ok_bind, Meets.ok_iff]
  · rw [bumped]
    exact Meets.bind (sound.arena.alloc_starved _ _) fun _ _ => (Meets.ok_iff _).mpr trivial

theorem Sound.metallocOr_meets {reservations : Nat → Option Nat} (reserves : Reserves reservations)
    {w : World Memory} {others : List PageManager.Chunk} {live : List Block} {bins : Nat → List Nat}
    (sound : Sound reservations w others live bins) (message : String) (size k : Nat)
    (small : size < 2 ^ 63) (fine : k ≤ 4) :
    Meets (metallocOr message w size (2 ^ k)) Stop.Starved fun made =>
      ∃ bins', Sound reservations made.2 others (⟨made.1, size⟩ :: live) bins' := by
  have made : Meets (metalloc w size (2 ^ k)) Stop.Starved fun made =>
      ∃ bins', Sound reservations made.2 others (⟨made.1, size⟩ :: live) bins' := by
    refine ⟨fun made ok => ?_, (sound.metalloc_starved size (2 ^ k)).fails⟩
    obtain ⟨_, bins', sound', _⟩ := sound.metalloc_spec reserves size k small fine made.1 made.2 ok
    exact ⟨bins', sound'⟩
  refine Meets.bind made ?_
  rintro ⟨ptr, after⟩ sound'
  exact Meets.ite (fun _ => (Meets.error_iff _).mpr trivial) fun _ => (Meets.ok_iff _).mpr sound'

end MetaArena

class Sized (Object : Type) where
  size : Object → Nat

section

variable {Object : Type} [Sized Object]

def Dropped (o : Object) : Prop := numBuckets ≤ getBucketIndex (alignSize (Sized.size o))

structure Keeps (reservations : Nat → Option Nat) (others : List PageManager.Chunk)
    (foreign : List Block) (w : World (Heap Object)) (held : Nat → Option Object) : Prop where
  blocks : ∃ live bins, MetaArena.Sound reservations w others live bins ∧
    ∀ b, b ∈ live ↔ b ∈ foreign ∨ ∃ o, held b.ptr = some o ∧ b.size = Sized.size o
  apart : ∀ b ∈ foreign, held b.ptr = none
  stored : ∀ p o, held p = some o → w.memory p = some (.object o)
  known : ∀ p o, w.memory p = some (.object o) → held p = some o ∨ Dropped o

namespace Keeps

variable {reservations : Nat → Option Nat} {others : List PageManager.Chunk} {foreign : List Block}
  {w : World (Heap Object)} {held : Nat → Option Object}

omit [Sized Object] in
theorem write_object {live : List Block} {bins : Nat → List Nat}
    (sound : MetaArena.Sound reservations w others live bins) (b : Block) (alive : b ∈ live)
    (o : Object) : MetaArena.Sound reservations (store w b.ptr o) others live bins := by
  refine sound.write_sound (w.memory.put b.ptr (.object o)) fun i q inside listed => ?_
  refine Heap.next_put _ _ _ _ fun same => ?_
  have node : (⟨q, 16 * (i + 1)⟩ : Range) ∈ MetaArena.nodeRanges bins := ⟨i, q, inside, listed, rfl⟩
  have range : b.range ∈ MetaArena.liveRanges live := ⟨b, alive, rfl⟩
  have twice := sound.start_inj b.range _ (.inl range) (.inr node) same.symm
  exact Set.disjoint_left.mp sound.separate range (twice ▸ node)

omit [Sized Object] in
theorem metarecycle_memory (w : World (Heap Object)) (p size : Nat) (nonzero : 0 < p) :
    numBuckets ≤ getBucketIndex (alignSize size) ∧ (MetaArena.metarecycle w p size).memory = w.memory ∨
    ∃ next, (MetaArena.metarecycle w p size).memory = w.memory.put p (.freeNode next) := by
  rcases MetaArena.metarecycle_cases w p size (Nat.ne_of_gt nonzero) with ⟨large, eq⟩ | ⟨_, eq⟩
  · exact .inl ⟨large, by rw [eq]⟩
  · rw [eq]
    exact .inr ⟨_, rfl⟩

theorem alloc (reserves : Reserves reservations) (keeps : Keeps reservations others foreign w held)
    (size k : Nat) (small : size < 2 ^ 63) (fine : k ≤ 4) :
    Meets (MetaArena.metalloc w size (2 ^ k)) Stop.Starved fun made =>
      0 < made.1 ∧ held made.1 = none ∧ made.2.memory = w.memory ∧
        made.2.metaArena.lastAllocatedShape = w.metaArena.lastAllocatedShape ∧
        ∀ o, Sized.size o = size → Keeps reservations others foreign (store made.2 made.1 o)
          (Function.update held made.1 (some o)) := by
  obtain ⟨live, bins, sound, listed⟩ := keeps.blocks
  refine ⟨?_, (sound.metalloc_starved size (2 ^ k)).fails⟩
  rintro ⟨p, after⟩ made
  obtain ⟨memory, bins', sound', _⟩ := sound.metalloc_spec reserves size k small fine p after made
  have fresh (b : Block) (alive : b ∈ live) : b.ptr ≠ p := by
    rintro rfl
    exact (List.nodup_cons.mp sound'.distinct).1 (List.mem_map.mpr ⟨b, alive, rfl⟩)
  have unheld : held p = none := by
    by_contra taken
    obtain ⟨o, there⟩ := Option.ne_none_iff_exists'.mp taken
    exact fresh ⟨p, Sized.size o⟩ ((listed _).mpr (.inr ⟨o, there, rfl⟩)) rfl
  refine ⟨(sound'.placed (Block.range ⟨p, size⟩) (.inl ⟨_, List.mem_cons_self, rfl⟩)).2.1, unheld,
    memory, (MetaArena.metalloc_kept w size _ p after made).1, fun o fits => ?_⟩
  refine ⟨⟨⟨p, size⟩ :: live, bins', write_object sound' ⟨p, size⟩ List.mem_cons_self o, ?_⟩, ?_, ?_, ?_⟩
  · intro b
    by_cases here : b.ptr = p
    · have gone : b ∉ live := fun alive => fresh b alive here
      have own : b ∉ foreign := fun other => gone ((listed b).mpr (.inl other))
      obtain ⟨ptr, bytes⟩ := b
      obtain rfl : ptr = p := here
      simp [own, gone, fits]
    · have different : b ≠ ⟨p, size⟩ := fun same => here (same ▸ rfl)
      simp [Function.update_of_ne here, different, listed b]
  · intro b other
    rw [Function.update_of_ne (fresh b ((listed b).mpr (.inl other)))]
    exact keeps.apart b other
  · intro q o' there
    by_cases here : q = p
    · subst here
      rw [Function.update_self] at there
      exact Option.some.inj there ▸ store_here _ _ _
    · rw [Function.update_of_ne here] at there
      exact (store_there _ _ _ _ here).trans (memory ▸ keeps.stored q o' there)
  · intro q o' there
    by_cases here : q = p
    · subst here
      rw [store_here] at there
      cases there
      exact .inl (Function.update_self ..)
    · rw [store_there _ _ _ _ here, memory] at there
      rw [Function.update_of_ne here]
      exact keeps.known q o' there

theorem metallocOr_meets (reserves : Reserves reservations)
    (keeps : Keeps reservations others foreign w held) (message : String) (size k : Nat)
    (small : size < 2 ^ 63) (fine : k ≤ 4) :
    Meets (MetaArena.metallocOr message w size (2 ^ k)) Stop.Starved fun made =>
      held made.1 = none ∧ made.2.memory = w.memory ∧
        made.2.metaArena.lastAllocatedShape = w.metaArena.lastAllocatedShape ∧
        ∀ o, Sized.size o = size → Keeps reservations others foreign (store made.2 made.1 o)
          (Function.update held made.1 (some o)) := by
  refine Meets.bind (keeps.alloc reserves size k small fine) ?_
  rintro ⟨ptr, after⟩ ⟨positive, rest⟩
  dsimp only
  rw [if_neg (Nat.ne_of_gt positive)]
  exact (Meets.ok_iff _).mpr rest

theorem put (keeps : Keeps reservations others foreign w held) (p : Nat) (o o' : Object)
    (there : held p = some o) (fits : Sized.size o' = Sized.size o) :
    Keeps reservations others foreign (store w p o') (Function.update held p (some o')) := by
  obtain ⟨live, bins, sound, listed⟩ := keeps.blocks
  have alive : ⟨p, Sized.size o⟩ ∈ live := (listed _).mpr (.inr ⟨o, there, rfl⟩)
  refine ⟨⟨live, bins, write_object sound _ alive o', ?_⟩, ?_, ?_, ?_⟩
  · intro b
    rw [listed b]
    by_cases here : b.ptr = p
    · simp [here, there, fits]
    · simp [Function.update_of_ne here]
  · intro b other
    have apart := keeps.apart b other
    by_cases here : b.ptr = p
    · rw [here, there] at apart
      cases apart
    · rwa [Function.update_of_ne here]
  · intro q o'' at'
    by_cases here : q = p
    · subst here
      rw [Function.update_self] at at'
      exact Option.some.inj at' ▸ store_here _ _ _
    · rw [Function.update_of_ne here] at at'
      exact (store_there _ _ _ _ here).trans (keeps.stored q o'' at')
  · intro q o'' at'
    by_cases here : q = p
    · subst here
      rw [store_here] at at'
      cases at'
      exact .inl (Function.update_self ..)
    · rw [store_there _ _ _ _ here] at at'
      rw [Function.update_of_ne here]
      exact keeps.known q o'' at'

theorem nonzero (keeps : Keeps reservations others foreign w held) (p : Nat) (o : Object)
    (there : held p = some o) : 0 < p := by
  obtain ⟨live, bins, sound, listed⟩ := keeps.blocks
  have alive : ⟨p, Sized.size o⟩ ∈ live := (listed _).mpr (.inr ⟨o, there, rfl⟩)
  exact (sound.placed (Block.range ⟨p, Sized.size o⟩) (.inl ⟨_, alive, rfl⟩)).2.1

theorem free (keeps : Keeps reservations others foreign w held) (p : Nat) (o : Object) (size : Nat)
    (there : held p = some o) (same : alignSize size = alignSize (Sized.size o)) :
    Keeps reservations others foreign (MetaArena.metarecycle w p size)
      (Function.update held p none) := by
  obtain ⟨live, bins, sound, listed⟩ := keeps.blocks
  have alive : ⟨p, Sized.size o⟩ ∈ live := (listed _).mpr (.inr ⟨o, there, rfl⟩)
  obtain ⟨bins', sound', _⟩ := sound.metarecycle_spec _ alive size same
  have nodup : live.Nodup := List.Nodup.of_map _ sound.distinct
  have single (b : Block) (member : b ∈ live) (here : b.ptr = p) : b = ⟨p, Sized.size o⟩ :=
    List.inj_on_of_nodup_map sound.distinct member alive here
  have written := metarecycle_memory w p size (keeps.nonzero p o there)
  refine ⟨⟨_, bins', sound', ?_⟩, ?_, ?_, ?_⟩
  · intro b
    rw [nodup.mem_erase_iff, listed b]
    by_cases here : b.ptr = p
    · have gone : b ∈ foreign → b = ⟨p, Sized.size o⟩ := fun other =>
        single b ((listed b).mpr (.inl other)) here
      have apart := keeps.apart b
      simp only [here, there] at apart ⊢
      simp only [Function.update_self]
      constructor
      · rintro ⟨different, other | ⟨o', at', fits⟩⟩
        · exact .inl other
        · cases at'
          obtain ⟨ptr, bytes⟩ := b
          exact (different (by simp_all)).elim
      · rintro (other | ⟨o', none, _⟩)
        · cases apart other
        · cases none
    · have different : b ≠ ⟨p, Sized.size o⟩ := fun same => here (same ▸ rfl)
      simp [Function.update_of_ne here, different]
  · intro b other
    by_cases here : b.ptr = p
    · rw [here, Function.update_self]
    · rw [Function.update_of_ne here]
      exact keeps.apart b other
  · intro q o' at'
    by_cases here : q = p
    · subst here
      rw [Function.update_self] at at'
      cases at'
    · rw [Function.update_of_ne here] at at'
      have before := keeps.stored q o' at'
      rcases written with ⟨_, eq⟩ | ⟨_, eq⟩
      · rw [eq]
        exact before
      · rw [eq, Heap.put_there _ _ _ _ here]
        exact before
  · intro q o' at'
    by_cases here : q = p
    · subst here
      rcases written with ⟨large, eq⟩ | ⟨_, eq⟩
      · rw [eq, keeps.stored q o there] at at'
        cases at'
        rw [same] at large
        exact .inr large
      · rw [eq, Heap.put_here] at at'
        cases at'
    · rw [Function.update_of_ne here]
      rcases written with ⟨_, eq⟩ | ⟨_, eq⟩
      · rw [eq] at at'
        exact keeps.known q o' at'
      · rw [eq, Heap.put_there _ _ _ _ here] at at'
        exact keeps.known q o' at'

theorem construct_meets (reserves : Reserves reservations) (size : Nat)
    (rounds : size + pageSize - 1 < 2 ^ 64) (manager : PageManager)
    (ledger : PageManager.Ledger reservations manager others) :
    Meets (MetaArena.construct manager size (Heap.empty : Heap Object)) Stop.Starved fun w =>
      Keeps reservations others [] w fun _ => none := by
  refine ⟨fun w made => ?_, (?_ : Meets _ Stop.Starved fun _ => True).fails⟩
  · have sound := MetaArena.Sound.construct_sound reserves size rounds manager Heap.empty ledger w made
    have blank : w.memory = Heap.empty := by
      obtain ⟨_, _, rest⟩ := (Result.bind_ok _ _ _).mp made
      cases rest
      rfl
    exact ⟨⟨[], _, sound, fun b => by simp⟩, fun _ _ => rfl, fun _ _ there => (by cases there),
      fun p o there => by rw [blank] at there; cases there⟩
  · refine Meets.bind (?_ : Meets _ _ fun _ => True) fun _ _ => (Meets.ok_iff _).mpr trivial
    exact Meets.bind (Arena.newChunk_starved manager size) fun _ _ => (Meets.ok_iff _).mpr trivial

theorem setLast (keeps : Keeps reservations others foreign w held) (last : Option Nat) :
    Keeps reservations others foreign
      { w with metaArena := { w.metaArena with lastAllocatedShape := last } } held := by
  obtain ⟨live, bins, sound, listed⟩ := keeps.blocks
  refine ⟨⟨live, bins, ?_, listed⟩, keeps.apart, keeps.stored, keeps.known⟩
  exact sound.resplit _ _ _ rfl rfl (Set.Subset.refl _) sound.separate sound.distinct sound.small
    sound.linked sound.readable sound.booked

end Keeps

end

end ElySquare
