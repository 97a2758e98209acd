import Zhenxiang.Kernel.HeapInvariant

/-! sys_malloc and sys_free keep the heap in good order, whatever pages malloc_page
hands out and whatever the task writes into its blocks. -/
namespace Zhenxiang.Kernel
open Lib

/-- The number of free blocks of the arena a of class i. -/
def freeCount (live : Nat → Nat) (a i : Nat) : Nat :=
  ((Finset.range (blocksPerArena i)).filter fun idx => live (blockAt a i idx) = 0).card

/-- How the live blocks lie in the arenas: every large arena and at least one block of
every small one is in use. -/
structure Usage (runs : Nat → Nat) (cls : Nat → Option Nat) (live : Nat → Nat) : Prop where
  placed : ∀ p, 0 < live p →
    (∃ a, 0 < runs a ∧ cls a = none ∧ p = a + sizeofArena ∧
      live p + sizeofArena ≤ runs a * pgSize) ∨
    ∃ i, Block cls i p ∧ live p ≤ blockSize i
  large : ∀ a, 0 < runs a → cls a = none → 0 < live (a + sizeofArena)
  small : ∀ a i, cls a = some i → ∃ idx < blocksPerArena i, 0 < live (blockAt a i idx)

structure HeapView (T : HeapTask) (s : HeapSys) (cls : Nat → Option Nat) (cnt : Nat → Nat) :
    Prop where
  layout : Layout T s.heap.runs cls
  rep : Rep T s.heap.runs cls cnt (fun b => s.live b = 0) s.heap.mem
  usage : Usage s.heap.runs cls s.live
  count : ∀ a i, cls a = some i → cnt a = freeCount s.live a i

def HeapInv (T : HeapTask) (s : HeapSys) : Prop := ∃ cls cnt, HeapView T s cls cnt

theorem wp_onMem {α : Type} {c : Kern Mem α} {Q : α → Heap → Prop} {E : Fault → Prop} {h : Heap} :
    wp (onMem c) Q E h ↔ wp c (fun a m => Q a { h with mem := m }) E h.mem :=
  wp_zoom

/-! Counting free blocks. -/
section Counting
variable {live : Nat → Nat} {a i idx size : Nat}

theorem freeCount_le (live : Nat → Nat) (a i : Nat) : freeCount live a i ≤ blocksPerArena i := by
  have := Finset.card_filter_le (Finset.range (blocksPerArena i))
    fun idx => live (blockAt a i idx) = 0
  rwa [Finset.card_range] at this

theorem freeCount_lt (hidx : idx < blocksPerArena i) (h : 0 < live (blockAt a i idx)) :
    freeCount live a i < blocksPerArena i := by
  have strict : (Finset.range (blocksPerArena i)).filter (fun k => live (blockAt a i k) = 0) ⊂
      Finset.range (blocksPerArena i) :=
    Finset.filter_ssubset.2 ⟨idx, Finset.mem_range.2 hidx, Nat.ne_of_gt h⟩
  have := Finset.card_lt_card strict
  rwa [Finset.card_range] at this

theorem freeCount_full (h : freeCount live a i = blocksPerArena i) (hidx : idx < blocksPerArena i) :
    live (blockAt a i idx) = 0 := by
  by_contra hne
  have := freeCount_lt hidx (Nat.pos_of_ne_zero hne)
  omega

theorem freeCount_other {p : Nat} (h : ∀ idx < blocksPerArena i, blockAt a i idx ≠ p) :
    freeCount (Function.update live p size) a i = freeCount live a i := by
  unfold freeCount
  congr 1
  apply Finset.filter_congr
  intro k hk
  rw [Function.update_of_ne (h k (Finset.mem_range.1 hk))]

theorem freeCount_take (hidx : idx < blocksPerArena i) (h : live (blockAt a i idx) = 0)
    (hs : 0 < size) :
    freeCount (Function.update live (blockAt a i idx) size) a i + 1 = freeCount live a i := by
  have split : (Finset.range (blocksPerArena i)).filter (fun k => live (blockAt a i k) = 0) =
      insert idx ((Finset.range (blocksPerArena i)).filter
        fun k => Function.update live (blockAt a i idx) size (blockAt a i k) = 0) := by
    ext k
    simp only [Finset.mem_filter, Finset.mem_range, Finset.mem_insert]
    by_cases hk : k = idx
    · subst hk
      simp [hidx, h]
    · rw [Function.update_of_ne fun he => hk (blockAt_inj he)]
      simp [hk]
  unfold freeCount
  rw [split, Finset.card_insert_of_notMem]
  simp [Nat.ne_of_gt hs]

theorem freeCount_put (hidx : idx < blocksPerArena i) (h : 0 < live (blockAt a i idx)) :
    freeCount (Function.update live (blockAt a i idx) 0) a i = freeCount live a i + 1 := by
  have now : Function.update live (blockAt a i idx) 0 (blockAt a i idx) = 0 := by simp
  have back := freeCount_take hidx now h
  rw [Function.update_idem, Function.update_eq_self] at back
  exact back.symm

theorem freeCount_empty (h : ∀ idx < blocksPerArena i, live (blockAt a i idx) = 0) :
    freeCount live a i = blocksPerArena i := by
  have all : (Finset.range (blocksPerArena i)).filter (fun k => live (blockAt a i k) = 0) =
      Finset.range (blocksPerArena i) :=
    Finset.filter_true_of_mem fun k hk => h k (Finset.mem_range.1 hk)
  rw [freeCount, all, Finset.card_range]

theorem freeCount_used (h : freeCount live a i < blocksPerArena i) :
    ∃ idx < blocksPerArena i, 0 < live (blockAt a i idx) := by
  by_contra hn
  push Not at hn
  have := freeCount_empty fun idx hidx => Nat.le_zero.1 (hn idx hidx)
  omega

end Counting

theorem block2arena_add {a k : Nat} (ha : pgSize ∣ a) (hk : k < pgSize) :
    block2arena (a + k) = a := by
  obtain ⟨q, rfl⟩ := ha
  simp only [block2arena, pgSize] at *
  omega

theorem block2arena_block {a i idx : Nat} (ha : pgSize ∣ a) (hidx : idx < blocksPerArena i) :
    block2arena (blockAt a i idx) = a := by
  have inside := block_in_page hidx a
  have size := blockSize_ge i
  obtain ⟨k, hk⟩ := Nat.exists_eq_add_of_le (Nat.le_of_add_right_le inside.1)
  rw [hk]
  apply block2arena_add ha
  simp only [pgSize, sizeofArena] at *
  omega

theorem descAt_inj {T : HeapTask} {i j : Nat} (h : descAt T i = descAt T j) : i = j := by
  simp only [descAt, sizeofDesc] at h
  omega

theorem descAt_pos (T : HeapTask) (i : Nat) : descAt T i ≠ 0 := by
  have := T.descs_pos
  unfold descAt
  omega

theorem blocksPerArena_lt (i : Nat) : blocksPerArena i < 2 ^ 32 := by
  have : blocksPerArena i ≤ pgSize - sizeofArena := Nat.div_le_self _ _
  simp only [pgSize, sizeofArena] at this
  omega

section Functions
variable {T : HeapTask} {h : Heap} {cls : Nat → Option Nat} {cnt : Nat → Nat} {free : Nat → Prop}

theorem arena2block_spec {a i idx : Nat} (rep : Rep T h.runs cls cnt free h.mem)
    (lay : Layout T h.runs cls) (ha : cls a = some i) {Q : Nat → Heap → Prop}
    {E : Fault → Prop} : wp (arena2block a idx) Q E h ↔ Q (blockAt a i idx) h := by
  obtain ⟨h0, -, -⟩ := rep.small a i ha
  have size := (rep.desc i (lay.page ha).2.2.2).1
  simp only [arena2block, wp_bind, wp_onMem, wp_load, wp_pure, h0, size]
  rfl

theorem carveBlock_spec {a i idx : Nat} (rep : Rep T h.runs cls cnt free h.mem)
    (lay : Layout T h.runs cls) (ha : cls a = some i) (hidx : idx < blocksPerArena i)
    (used : ¬ free (blockAt a i idx)) :
    Succeeds (carveBlock a idx) (fun _ h' => h'.runs = h.runs ∧
      Rep T h.runs cls cnt (fun b => free b ∨ b = blockAt a i idx) h'.mem) h := by
  have hi := (lay.page ha).2.2.2
  have hb : Block cls i (blockAt a i idx) := ⟨a, idx, ha, hidx, rfl⟩
  obtain ⟨h0, -, -⟩ := rep.small a i ha
  simp only [carveBlock, Succeeds, wp_bind, arena2block_spec rep lay ha, wp_onMem, wp_load, h0,
    wp_assert]
  refine wp_post (rep.find lay hi hb) ?_
  rintro found m ⟨hf, rfl⟩
  have hfalse : found = false := by
    cases found with
    | false => rfl
    | true => exact (used (hf.1 rfl)).elim
  refine ⟨fun _ => ?_, fun hn => hn hfalse⟩
  refine wp_post (rep.append lay hi hb used) ?_
  intro _ m' hm'
  exact ⟨trivial, hm'⟩

theorem reclaimBlock_spec {a i idx : Nat} (rep : Rep T h.runs cls cnt free h.mem)
    (lay : Layout T h.runs cls) (ha : cls a = some i) (hidx : idx < blocksPerArena i)
    (hfree : free (blockAt a i idx)) :
    Succeeds (reclaimBlock a idx) (fun _ h' => h'.runs = h.runs ∧
      Rep T h.runs cls cnt (fun b => free b ∧ b ≠ blockAt a i idx) h'.mem) h := by
  have hi := (lay.page ha).2.2.2
  have hb : Block cls i (blockAt a i idx) := ⟨a, idx, ha, hidx, rfl⟩
  obtain ⟨h0, -, -⟩ := rep.small a i ha
  simp only [reclaimBlock, Succeeds, wp_bind, arena2block_spec rep lay ha, wp_onMem, wp_load, h0,
    wp_assert]
  refine wp_post (rep.find lay hi hb) ?_
  rintro found m ⟨hf, rfl⟩
  refine ⟨fun _ => ?_, fun hn => hn (hf.2 hfree)⟩
  refine wp_post (rep.remove lay hi hb hfree) ?_
  intro _ m' hm'
  exact ⟨trivial, hm'⟩

/-- The search ends at a class whose blocks are big enough. -/
theorem matchDesc_spec {size : Nat} (rep : Rep T h.runs cls cnt free h.mem)
    (small : size ≤ 1024) {n idx : Nat} (left : n + idx = descCnt) (more : 0 < n) :
    Succeeds (matchDesc T.descs size n idx)
      (fun i h' => i < descCnt ∧ size ≤ blockSize i ∧ h' = h) h := by
  induction n generalizing idx with
  | zero => exact absurd more (Nat.lt_irrefl 0)
  | succ n ih =>
    have hidx : idx < descCnt := by omega
    have hsize : h.mem (T.descs + idx * sizeofDesc) = blockSize idx := (rep.desc idx hidx).1
    simp only [matchDesc, Succeeds, wp_bind, wp_onMem, wp_load, hsize, wp_ite, wp_pure]
    refine ⟨fun hle => ⟨hidx, hle, trivial⟩, fun hgt => ?_⟩
    rcases Nat.eq_zero_or_pos n with rfl | hn
    · -- the last class has blocks of 1024 bytes
      obtain rfl : idx = 6 := by
        simp only [descCnt] at left
        omega
      exact (hgt (Nat.le_trans small (by decide))).elim
    · exact ih (by omega) hn

/-- The loop that cuts a new arena into blocks. -/
theorem carve_spec {a i : Nat} (rep : Rep T h.runs cls cnt free h.mem)
    (lay : Layout T h.runs cls) (ha : cls a = some i)
    (used : ∀ idx < blocksPerArena i, ¬ free (blockAt a i idx)) :
    Succeeds (forRange (blocksPerArena i) (carveBlock a)) (fun _ h' => h'.runs = h.runs ∧
      Rep T h.runs cls cnt (fun b => free b ∨ ∃ idx < blocksPerArena i, b = blockAt a i idx)
        h'.mem) h := by
  refine wp_forRange (fun k (h' : Heap) => h'.runs = h.runs ∧ Rep T h.runs cls cnt
    (fun b => free b ∨ ∃ idx < k, b = blockAt a i idx) h'.mem) ?_ ?_
  · refine ⟨rfl, rep.weaken (fun _ _ _ => rfl) fun _ b _ => ?_⟩
    simp
  · rintro k h' hk ⟨hruns, hrep⟩
    have fresh : ¬ (free (blockAt a i k) ∨ ∃ idx < k, blockAt a i k = blockAt a i idx) := by
      rintro (hf | ⟨idx, hlt, he⟩)
      · exact used k hk hf
      · exact Nat.lt_irrefl k (blockAt_inj he ▸ hlt)
    rw [← hruns] at hrep lay
    refine wp_post (carveBlock_spec hrep lay ha hk fresh) ?_
    rintro - h'' ⟨hruns', hrep'⟩
    rw [hruns] at hruns' hrep'
    refine ⟨hruns', hrep'.weaken (fun _ _ _ => rfl) fun _ b _ => ?_⟩
    grind

theorem reclaim_spec {a i : Nat} (rep : Rep T h.runs cls cnt free h.mem)
    (lay : Layout T h.runs cls) (ha : cls a = some i)
    (all_free : ∀ idx < blocksPerArena i, free (blockAt a i idx)) :
    Succeeds (forRange (blocksPerArena i) (reclaimBlock a)) (fun _ h' => h'.runs = h.runs ∧
      Rep T h.runs cls cnt (fun b => free b ∧ ∀ idx < blocksPerArena i, b ≠ blockAt a i idx)
        h'.mem) h := by
  refine wp_forRange (fun k (h' : Heap) => h'.runs = h.runs ∧ Rep T h.runs cls cnt
    (fun b => free b ∧ ∀ idx < k, b ≠ blockAt a i idx) h'.mem) ?_ ?_
  · refine ⟨rfl, rep.weaken (fun _ _ _ => rfl) fun _ b _ => ?_⟩
    simp
  · rintro k h' hk ⟨hruns, hrep⟩
    have still : free (blockAt a i k) ∧ ∀ idx < k, blockAt a i k ≠ blockAt a i idx :=
      ⟨all_free k hk, fun idx hlt he => Nat.lt_irrefl k (blockAt_inj he ▸ hlt)⟩
    rw [← hruns] at hrep lay
    refine wp_post (reclaimBlock_spec hrep lay ha hk still) ?_
    rintro - h'' ⟨hruns', hrep'⟩
    rw [hruns] at hruns' hrep'
    refine ⟨hruns', hrep'.weaken (fun _ _ _ => rfl) fun _ b _ => ?_⟩
    grind

/-- Memory after a new arena was cleared and its header written. -/
def arenaHeader (m contents : Mem) (a n desc cnt large : Nat) : Mem :=
  let filled : Mem := fun x => if a ≤ x ∧ x < a + n * pgSize then contents x else m x
  let cleared : Mem := fun x => if a ≤ x ∧ x < a + n * pgSize then 0 else filled x
  Function.update (Function.update (Function.update cleared a desc) (cntOf a) cnt) (largeOf a) large

theorem arenaHeader_outside {m contents : Mem} {a n desc cnt large x : Nat} (hn : 0 < n)
    (hx : x < a ∨ a + n * pgSize ≤ x) : arenaHeader m contents a n desc cnt large x = m x := by
  have size : 1 * pgSize ≤ n * pgSize := Nat.mul_le_mul_right _ hn
  simp only [arenaHeader, Function.update_apply, cntOf, largeOf, pgSize] at *
  grind

theorem arenaHeader_inside {m contents : Mem} {a n desc cnt large x : Nat}
    (hx : a + sizeofArena ≤ x) (hx' : x < a + n * pgSize) :
    arenaHeader m contents a n desc cnt large x = 0 := by
  simp only [arenaHeader, Function.update_apply, cntOf, largeOf, pgSize, sizeofArena] at *
  grind

theorem arenaHeader_header (m contents : Mem) (a n desc cnt large : Nat) :
    arenaHeader m contents a n desc cnt large a = desc ∧
      arenaHeader m contents a n desc cnt large (cntOf a) = cnt ∧
      arenaHeader m contents a n desc cnt large (largeOf a) = large := by
  simp [arenaHeader, cntOf, largeOf]

theorem makeArena_spec {pages : PageSource} {i : Nat} (rep : Rep T h.runs cls cnt free h.mem)
    (lay : Layout T h.runs cls) (hi : i < descCnt)
    (honest : ∀ a m, pages 1 = some (a, m) → Fresh T h a 1)
    (hfree : ∀ a, Fresh T h a 1 → ∀ idx < blocksPerArena i, free (blockAt a i idx)) :
    Succeeds (makeArena pages (descAt T i)) (fun r h' => (r = false ∧ h' = h) ∨
      (r = true ∧ ∃ a, Fresh T h a 1 ∧ h'.runs = Function.update h.runs a 1 ∧
        Rep T h'.runs (Function.update cls a (some i)) (Function.update cnt a (blocksPerArena i))
          free h'.mem)) h := by
  cases hp : pages 1 with
  | none => simp [makeArena, mallocPage, hp]
  | some r =>
    obtain ⟨a, contents⟩ := r
    have fresh := honest a contents hp
    have ha : a ≠ 0 := Nat.ne_of_gt fresh.pos
    have class_ok : ∀ j, some i = some j → 1 = 1 ∧ j < descCnt := by
      rintro j ⟨⟩
      exact ⟨rfl, hi⟩
    have lay' := lay.grow fresh class_ok
    have grown := rep.grow lay (by decide) fresh class_ok (fun x hx => arenaHeader_outside (by decide) hx)
      (arenaHeader_header h.mem contents a 1 (descAt T i) (blocksPerArena i) 0)
    -- the loop reads blocks_per_arena from the descriptor, outside the new page
    have blocks : ∀ v w, Function.update (Function.update (fun x => if a ≤ x ∧ x < a + pgSize then 0
        else if a ≤ x ∧ x < a + 1 * pgSize then contents x else h.mem x) a v) (largeOf a) w
        (blocksPerArenaOf (descAt T i)) = blocksPerArena i := by
      intro v w
      have descs := fresh.descs
      have hm := (rep.desc i hi).2
      simp only [Function.update_apply, NoOverlap, descAt, blocksPerArenaOf, largeOf, sizeofDesc,
        descCnt, pgSize] at *
      grind
    simp only [makeArena, mallocPage, hp, Succeeds, wp_bind, wp_assert, wp_modify, wp_pure, if_neg ha,
      wp_onMem, wp_clear, wp_store, wp_load, blocks]
    refine ⟨fun _ => ?_, fun many => many ⟨by decide, by decide⟩⟩
    have same : Function.update (Function.update (Function.update
        (fun x => if a ≤ x ∧ x < a + pgSize then 0
          else if a ≤ x ∧ x < a + 1 * pgSize then contents x else h.mem x) a (descAt T i))
          (largeOf a) 0) (cntOf a) (blocksPerArena i) =
        arenaHeader h.mem contents a 1 (descAt T i) (blocksPerArena i) 0 := by
      simp only [arenaHeader, Nat.one_mul]
      rw [Function.update_comm (by simp [cntOf, largeOf])]
    rw [same]
    refine wp_post (carve_spec grown lay' (Function.update_self _ _ _) ?_) ?_
    · intro idx hidx hf
      exact hf.2 i rfl idx hidx rfl
    · rintro - h' ⟨hruns, hrep⟩
      refine Or.inr ⟨trivial, a, fresh, hruns, ?_⟩
      rw [hruns]
      refine hrep.weaken (fun _ _ _ => rfl) fun j b _ => ?_
      constructor
      · intro hb
        by_cases hnew : ∃ idx < blocksPerArena i, b = blockAt a i idx
        · exact Or.inr hnew
        · refine Or.inl ⟨hb, ?_⟩
          rintro j' ⟨⟩ idx hidx he
          exact hnew ⟨idx, hidx, he⟩
      · rintro (⟨hb, -⟩ | ⟨idx, hidx, rfl⟩)
        · exact hb
        · exact hfree a fresh idx hidx

/-- Clearing a block that is in no list. -/
theorem Rep.clearBlock {m : Mem} {i b : Nat} (rep : Rep T h.runs cls cnt free m)
    (lay : Layout T h.runs cls) (hb : Block cls i b) (used : ¬ free b) :
    Rep T h.runs cls cnt free (fun y => if b ≤ y ∧ y < b + blockSize i then 0 else m y) := by
  apply rep.congr lay
  intro x hx
  have out : ¬ (b ≤ x ∧ x < b + blockSize i) := by
    rcases hx with hd | ⟨a, ha, hax, hxa⟩ | ⟨j, c, hc, hf, hcx, hxc⟩
    · have := (lay.block_placed hb).2.2.2
      omega
    · have := lay.block_header hb ha
      omega
    · have hne : b ≠ c := by
        rintro rfl
        exact used hf
      have := lay.block_apart hb hc hne
      have := blockSize_ge j
      omega
  simp [out]

/-- Taking the first block off a free list: it comes back cleared, and its arena counts
one free block less. -/
theorem takeBlock_spec {i : Nat} (rep : Rep T h.runs cls cnt free h.mem)
    (lay : Layout T h.runs cls) (hi : i < descCnt) (some_free : ∃ b, Block cls i b ∧ free b)
    (counted : ∀ a idx, cls a = some i → idx < blocksPerArena i → free (blockAt a i idx) →
      0 < cnt a ∧ cnt a < 2 ^ 32) :
    Succeeds (takeBlock (descAt T i)) (fun b h' => ∃ a idx, cls a = some i ∧
      idx < blocksPerArena i ∧ b = blockAt a i idx ∧ free b ∧ h'.runs = h.runs ∧
      Rep T h.runs cls (Function.update cnt a (cnt a - 1)) (fun c => free c ∧ c ≠ b) h'.mem ∧
      ∀ x, b ≤ x → x < b + blockSize i → h'.mem x = 0) h := by
  simp only [takeBlock, Succeeds, wp_bind, wp_onMem, wp_load, wp_clear, wp_store, wp_pure]
  refine wp_post (rep.pop lay hi some_free) ?_
  rintro b m ⟨hb, hf, hrep⟩
  obtain ⟨a, idx, ha, hidx, rfl⟩ := hb
  have hb : Block cls i (blockAt a i idx) := ⟨a, idx, ha, hidx, rfl⟩
  have page := lay.page ha
  have arena := block2arena_block page.1.aligned hidx
  have size : m (descAt T i) = blockSize i := (hrep.desc i hi).1
  have cleared := hrep.clearBlock lay hb fun hn => hn.2 rfl
  have hcnt := (cleared.small a i ha).2.1
  obtain ⟨pos, lt⟩ := counted a idx ha hidx hf
  have minus : (cnt a + 2 ^ 32 - 1) % 2 ^ 32 = cnt a - 1 := by omega
  rw [arena, size, hcnt, minus]
  refine ⟨a, idx, ha, hidx, rfl, hf, trivial, cleared.setCnt lay ha, ?_⟩
  intro x hx hx'
  have inside := block_in_page hidx a
  have hne : x ≠ cntOf a := by
    simp only [cntOf, sizeofArena] at *
    omega
  rw [Function.update_of_ne hne]
  simp [hx, hx']

theorem divRoundUp_spec {size : Nat} (small : size < 65535 * pgSize) :
    let n := divRoundUp ((size + sizeofArena) % 2 ^ 32) pgSize
    0 < n ∧ size + sizeofArena ≤ n * pgSize ∧ n * pgSize % 2 ^ 32 = n * pgSize := by
  simp only [divRoundUp, pgSize, sizeofArena] at *
  omega

theorem mallocLarge_spec {pages : PageSource} {size : Nat}
    (rep : Rep T h.runs cls cnt free h.mem) (lay : Layout T h.runs cls)
    (small : size < 65535 * pgSize) (few : divRoundUp ((size + sizeofArena) % 2 ^ 32) pgSize < 3840)
    (honest : ∀ n a m, 0 < n → pages n = some (a, m) → Fresh T h a n) :
    Succeeds (mallocLarge pages size) (fun p h' => (p = 0 ∧ h' = h) ∨
      ∃ a n, p = a + sizeofArena ∧ 0 < n ∧ size + sizeofArena ≤ n * pgSize ∧ Fresh T h a n ∧
        h'.runs = Function.update h.runs a n ∧
        Rep T h'.runs (Function.update cls a none) (Function.update cnt a n) free h'.mem ∧
        ∀ x, p ≤ x → x < a + n * pgSize → h'.mem x = 0) h := by
  obtain ⟨hn, hsize, hmod⟩ := divRoundUp_spec small
  generalize hcount : divRoundUp ((size + sizeofArena) % 2 ^ 32) pgSize = n at hn hsize hmod few
  cases hp : pages n with
  | none =>
    simp only [mallocLarge, mallocPage, hcount, hp, Succeeds, wp_bind, wp_assert, wp_pure, wp_ite]
    exact ⟨fun _ => ⟨fun hne => (hne rfl).elim, fun _ => Or.inl ⟨trivial, trivial⟩⟩, fun many => many ⟨hn, few⟩⟩
  | some r =>
    obtain ⟨a, contents⟩ := r
    have fresh := honest n a contents hn hp
    have ha : a ≠ 0 := Nat.ne_of_gt fresh.pos
    have grown := rep.grow (v := n) (c := none) lay hn fresh
      (by rintro j ⟨⟩) (fun x hx => arenaHeader_outside hn hx) (arenaHeader_header h.mem contents a n 0 n 1)
    simp only [mallocLarge, mallocPage, hcount, hp, Succeeds, wp_bind, wp_assert, wp_modify, wp_pure,
      if_pos ha, wp_onMem, wp_clear, wp_store, hmod]
    refine ⟨fun _ => Or.inr ?_, fun many => many ⟨hn, few⟩⟩
    refine ⟨a, n, rfl, hn, hsize, fresh, rfl, ?_, ?_⟩
    · refine grown.weaken (fun _ _ _ => rfl) fun j b _ => ?_
      simp
    · intro x hx hx'
      exact arenaHeader_inside hx hx'

/-- A freed block goes to the tail of its list; the last one takes the arena with it. -/
theorem freeBlock_spec {a i idx : Nat} (rep : Rep T h.runs cls cnt free h.mem)
    (lay : Layout T h.runs cls) (ha : cls a = some i) (hidx : idx < blocksPerArena i)
    (used : ¬ free (blockAt a i idx)) (room : cnt a + 1 < 2 ^ 32)
    (full : cnt a + 1 = blocksPerArena i →
      ∀ k < blocksPerArena i, k ≠ idx → free (blockAt a i k)) :
    Succeeds (freeBlock a (blockAt a i idx)) (fun _ h' =>
      (cnt a + 1 ≠ blocksPerArena i ∧ h'.runs = h.runs ∧
        Rep T h.runs cls (Function.update cnt a (cnt a + 1))
          (fun b => free b ∨ b = blockAt a i idx) h'.mem) ∨
      (cnt a + 1 = blocksPerArena i ∧ h'.runs = Function.update h.runs a 0 ∧
        Rep T h'.runs (Function.update cls a none) cnt
          (fun b => free b ∧ ∀ k < blocksPerArena i, b ≠ blockAt a i k) h'.mem)) h := by
  have page := lay.page ha
  have hb : Block cls i (blockAt a i idx) := ⟨a, idx, ha, hidx, rfl⟩
  obtain ⟨h0, -, -⟩ := rep.small a i ha
  simp only [freeBlock, Succeeds, wp_bind, wp_onMem, wp_load, h0]
  refine wp_post (rep.append lay page.2.2.2 hb used) ?_
  rintro - m hrep
  have hcnt : m (cntOf a) = cnt a := (hrep.small a i ha).2.1
  have plus : (cnt a + 1) % 2 ^ 32 = cnt a + 1 := Nat.mod_eq_of_lt room
  have hset := hrep.setCnt (v := cnt a + 1) lay ha
  have hblocks := (hset.desc i page.2.2.2).2
  simp only [hcnt, plus, wp_store, wp_bind, hblocks, wp_ite, wp_pure]
  constructor
  · intro heq
    have all : ∀ k < blocksPerArena i, free (blockAt a i k) ∨ blockAt a i k = blockAt a i idx := by
      intro k hk
      by_cases hki : k = idx
      · subst hki
        exact Or.inr rfl
      · exact Or.inl (full heq k hk hki)
    refine wp_post (reclaim_spec hset lay ha all) ?_
    rintro - h' ⟨hruns, hrep'⟩
    have one : h'.runs a = 1 := by rw [hruns]; exact page.2.2.1
    simp only [mfreePage, wp_bind, wp_get, wp_ite, wp_modify, wp_throw, one]
    refine ⟨fun _ => Or.inr ⟨heq, by rw [hruns], ?_⟩, fun hn => hn ⟨by decide, trivial⟩⟩
    rw [hruns]
    have gone : ∀ j, cls a = some j → ∀ k < blocksPerArena j,
        ¬ ((free (blockAt a j k) ∨ blockAt a j k = blockAt a i idx) ∧
          ∀ k' < blocksPerArena i, blockAt a j k ≠ blockAt a i k') := by
      rintro j hj k hk ⟨-, hn⟩
      obtain rfl : i = j := by
        rw [ha] at hj
        exact Option.some.inj hj
      exact hn k hk rfl
    refine (hrep'.shrink gone).weaken ?_ ?_
    · intro b j hb'
      by_cases hba : b = a
      · subst hba; simp at hb'
      · rw [Function.update_of_ne hba]
    · intro j b _
      constructor
      · rintro ⟨hf, hn⟩
        exact ⟨Or.inl hf, hn⟩
      · rintro ⟨hf | rfl, hn⟩
        · exact ⟨hf, hn⟩
        · exact (hn idx hidx rfl).elim
  · intro hne
    exact Or.inl ⟨hne, trivial, hset⟩

end Functions

/-- The bytes sys_malloc hands out at p, by the header of the arena of p. -/
def capacity (m : Mem) (p : Nat) : Nat :=
  let a := block2arena p
  if m a = 0 then m (cntOf a) * pgSize - sizeofArena else m (m a)

section View
variable {T : HeapTask} {h : Heap} {cls : Nat → Option Nat} {cnt : Nat → Nat} {free : Nat → Prop}

theorem capacity_small {a i idx : Nat} (rep : Rep T h.runs cls cnt free h.mem)
    (lay : Layout T h.runs cls) (ha : cls a = some i) (hidx : idx < blocksPerArena i) :
    capacity h.mem (blockAt a i idx) = blockSize i := by
  have page := lay.page ha
  obtain ⟨h0, -, -⟩ := rep.small a i ha
  rw [capacity, block2arena_block page.1.aligned hidx]
  simp only [h0, if_neg (descAt_pos T i)]
  exact (rep.desc i page.2.2.2).1

theorem capacity_large {a : Nat} (rep : Rep T h.runs cls cnt free h.mem)
    (lay : Layout T h.runs cls) (ha : 0 < h.runs a) (hc : cls a = none) :
    capacity h.mem (a + sizeofArena) = h.runs a * pgSize - sizeofArena := by
  obtain ⟨h0, h4, -⟩ := rep.large a ha hc
  rw [capacity, block2arena_add (lay.placed a ha).aligned (by decide)]
  simp only [h0, h4, if_true]

/-- The heap just before a block of class i is taken: an arena without live blocks is
there only if every free block of the class lies in it. -/
structure Stocked (T : HeapTask) (h : Heap) (live : Nat → Nat) (cls : Nat → Option Nat)
    (cnt : Nat → Nat) (i : Nat) : Prop where
  layout : Layout T h.runs cls
  rep : Rep T h.runs cls cnt (fun b => live b = 0) h.mem
  placed : ∀ p, 0 < live p →
    (∃ a, 0 < h.runs a ∧ cls a = none ∧ p = a + sizeofArena ∧
      live p + sizeofArena ≤ h.runs a * pgSize) ∨
    ∃ i, Block cls i p ∧ live p ≤ blockSize i
  large : ∀ a, 0 < h.runs a → cls a = none → 0 < live (a + sizeofArena)
  small : ∀ a j, cls a = some j → (∃ idx < blocksPerArena j, 0 < live (blockAt a j idx)) ∨
    (∀ b, Block cls i b → live b = 0 → block2arena b = a)
  count : ∀ a j, cls a = some j → cnt a = freeCount live a j
  some_free : ∃ b, Block cls i b ∧ live b = 0

theorem Stocked.take {live : Nat → Nat} {i size : Nat} (st : Stocked T h live cls cnt i)
    (hi : i < descCnt) (hs : 0 < size) (fits : size ≤ blockSize i) :
    Succeeds (takeBlock (descAt T i)) (fun b h' => b ≠ 0 ∧ live b = 0 ∧
      HeapInv T ⟨h', Function.update live b size⟩ ∧
      ∀ x, b ≤ x → x < b + capacity h'.mem b → h'.mem x = 0) h := by
  have lay := st.layout
  have counted : ∀ a idx, cls a = some i → idx < blocksPerArena i → live (blockAt a i idx) = 0 →
      0 < cnt a ∧ cnt a < 2 ^ 32 := by
    intro a idx ha hidx hf
    rw [st.count a i ha]
    have one := freeCount_take hidx hf Nat.one_pos
    have le := freeCount_le live a i
    have lt := blocksPerArena_lt i
    omega
  refine wp_post (takeBlock_spec st.rep lay hi st.some_free counted) ?_
  rintro _ h' ⟨a, idx, ha, hidx, rfl, hfree, hruns, hrep, zero⟩
  have hb : Block cls i (blockAt a i idx) := ⟨a, idx, ha, hidx, rfl⟩
  have arena := block2arena_block (lay.page ha).1.aligned hidx
  have lay' : Layout T h'.runs cls := by rw [hruns]; exact lay
  have rep' : Rep T h'.runs cls (Function.update cnt a (cnt a - 1))
      (fun c => Function.update live (blockAt a i idx) size c = 0) h'.mem := by
    rw [hruns]
    refine hrep.weaken (fun _ _ _ => rfl) fun j c _ => ?_
    by_cases hc : c = blockAt a i idx
    · subst hc; simp [Nat.ne_of_gt hs]
    · simp [hc]
  have more : ∀ p, 0 < live p → 0 < Function.update live (blockAt a i idx) size p := by
    intro p hp
    by_cases hpb : p = blockAt a i idx
    · subst hpb; simpa using hs
    · rwa [Function.update_of_ne hpb]
  refine ⟨Nat.ne_of_gt (lay.block_placed hb).1, hfree, ⟨cls, _, lay', rep', ⟨?_, ?_, ?_⟩, ?_⟩, ?_⟩
  · intro p hp
    by_cases hpb : p = blockAt a i idx
    · subst hpb
      exact Or.inr ⟨i, hb, by simpa using fits⟩
    · simp only [Function.update_of_ne hpb, hruns] at hp ⊢
      exact st.placed p hp
  · intro a' ha' hc
    simp only [hruns] at ha'
    exact more _ (st.large a' ha' hc)
  · intro a' j ha'
    rcases st.small a' j ha' with ⟨k, hk, hl⟩ | hall
    · exact ⟨k, hk, more _ hl⟩
    · obtain rfl : a = a' := arena.symm.trans (hall _ hb hfree)
      obtain rfl : i = j := by
        rw [ha] at ha'
        exact Option.some.inj ha'
      exact ⟨idx, hidx, by simpa using hs⟩
  · intro a' j ha'
    by_cases haa : a' = a
    · subst haa
      obtain rfl : i = j := by
        rw [ha] at ha'
        exact Option.some.inj ha'
      have one := freeCount_take hidx hfree hs
      have old := st.count a' i ha
      simp only [Function.update_self]
      omega
    · rw [Function.update_of_ne haa, st.count a' j ha']
      symm
      apply freeCount_other
      intro k hk he
      have := block2arena_block (lay.page ha').1.aligned hk
      rw [he, arena] at this
      exact haa this.symm
  · rw [capacity_small rep' lay' ha hidx]
    exact zero

/-- With a free block in the list, the heap in good order is stocked. -/
theorem HeapView.stocked {s : HeapSys} {i : Nat} (v : HeapView T s cls cnt)
    (some_free : ∃ b, Block cls i b ∧ s.live b = 0) : Stocked T s.heap s.live cls cnt i where
  layout := v.layout
  rep := v.rep
  placed := v.usage.placed
  large := v.usage.large
  small a j ha := Or.inl (v.usage.small a j ha)
  count := v.count
  some_free := some_free

/-- No live block lies in pages that are not in use. -/
theorem HeapView.fresh_free {s : HeapSys} {a n p : Nat} (v : HeapView T s cls cnt)
    (fresh : Fresh T s.heap a n) (hap : a ≤ p) (hpa : p < a + n * pgSize) : s.live p = 0 := by
  by_contra hne
  rcases v.usage.placed p (Nat.pos_of_ne_zero hne) with ⟨b, hb, -, rfl, hroom⟩ | ⟨i, hb, -⟩
  · have := fresh.runs b hb
    simp only [NoOverlap] at this
    omega
  · obtain ⟨b, idx, hcb, hidx, rfl⟩ := hb
    obtain ⟨-, pos, one, -⟩ := v.layout.page hcb
    have := fresh.runs b pos
    have inside := block_in_page hidx b
    have size := blockSize_ge i
    simp only [NoOverlap, one, pgSize, sizeofArena] at *
    omega

theorem HeapView.no_run_class {s : HeapSys} {a : Nat} (v : HeapView T s cls cnt)
    (ha : s.heap.runs a = 0) : cls a = none := by
  cases hc : cls a with
  | none => rfl
  | some i =>
    have := (v.layout.page hc).2.1
    omega

/-- A new arena for an empty list leaves the heap stocked. -/
theorem HeapView.stock {s : HeapSys} {i a : Nat} {h' : Heap} (v : HeapView T s cls cnt)
    (hi : i < descCnt) (fresh : Fresh T s.heap a 1) (none_free : ∀ b, Block cls i b → s.live b ≠ 0)
    (hruns : h'.runs = Function.update s.heap.runs a 1)
    (hrep : Rep T h'.runs (Function.update cls a (some i))
      (Function.update cnt a (blocksPerArena i)) (fun b => s.live b = 0) h'.mem) :
    Stocked T h' s.live (Function.update cls a (some i))
      (Function.update cnt a (blocksPerArena i)) i := by
  have hnone := v.no_run_class (fresh.not_run (by decide))
  have lay' : Layout T h'.runs (Function.update cls a (some i)) := by
    rw [hruns]
    refine v.layout.grow fresh ?_
    rintro j ⟨⟩
    exact ⟨rfl, hi⟩
  have new_free : ∀ idx < blocksPerArena i, s.live (blockAt a i idx) = 0 := by
    intro idx hidx
    have inside := block_in_page hidx a
    have size := blockSize_ge i
    apply v.fresh_free fresh
    · simp only [sizeofArena] at inside
      omega
    · simp only [pgSize] at *
      omega
  have old : ∀ b j, cls b = some j → b ≠ a := by
    rintro b j hb rfl
    rw [hnone] at hb
    cases hb
  refine ⟨lay', hrep, ?_, ?_, ?_, ?_, ?_⟩
  · intro p hp
    rcases v.usage.placed p hp with ⟨b, hb, hc, rfl, hroom⟩ | ⟨j, ⟨b, idx, hb, hidx, rfl⟩, hle⟩
    · have hba : b ≠ a := by
        rintro rfl
        rw [fresh.not_run (by decide)] at hb
        cases hb
      left
      exact ⟨b, by rwa [hruns, Function.update_of_ne hba],
        by rwa [Function.update_of_ne hba], rfl, by rwa [hruns, Function.update_of_ne hba]⟩
    · right
      refine ⟨j, ⟨b, idx, ?_, hidx, rfl⟩, hle⟩
      rwa [Function.update_of_ne (old b j hb)]
  · intro b hb hc
    have hba : b ≠ a := by
      rintro rfl
      rw [Function.update_self] at hc
      cases hc
    rw [hruns, Function.update_of_ne hba] at hb
    rw [Function.update_of_ne hba] at hc
    exact v.usage.large b hb hc
  · intro b j hb
    by_cases hba : b = a
    · subst hba
      right
      intro c hc hf
      rcases block_update.1 hc with ⟨-, idx, hidx, rfl⟩ | ⟨a', idx, -, ha', hidx, rfl⟩
      · exact block2arena_block fresh.aligned hidx
      · exact (none_free _ ⟨a', idx, ha', hidx, rfl⟩ hf).elim
    · rw [Function.update_of_ne hba] at hb
      exact Or.inl (v.usage.small b j hb)
  · intro b j hb
    by_cases hba : b = a
    · subst hba
      rw [Function.update_self] at hb ⊢
      cases hb
      exact (freeCount_empty new_free).symm
    · rw [Function.update_of_ne hba] at hb ⊢
      exact v.count b j hb
  · have pos : 0 < blocksPerArena i := by
      have hi' : i < 7 := hi
      interval_cases i <;> decide
    exact ⟨blockAt a i 0, ⟨a, 0, Function.update_self _ _ _, pos, rfl⟩, new_free 0 pos⟩

theorem HeapView.large_arena {s : HeapSys} {a n size : Nat} {h' : Heap} (v : HeapView T s cls cnt)
    (fresh : Fresh T s.heap a n) (hn : 0 < n) (hs : 0 < size)
    (fits : size + sizeofArena ≤ n * pgSize)
    (hruns : h'.runs = Function.update s.heap.runs a n)
    (hrep : Rep T h'.runs (Function.update cls a none) (Function.update cnt a n)
      (fun b => s.live b = 0) h'.mem) :
    s.live (a + sizeofArena) = 0 ∧
      HeapView T ⟨h', Function.update s.live (a + sizeofArena) size⟩ cls cnt := by
  have hnone := v.no_run_class (fresh.not_run hn)
  have same : Function.update cls a none = cls := by
    rw [← hnone, Function.update_eq_self]
  have lay' : Layout T h'.runs cls := by
    rw [hruns, ← same]
    exact v.layout.grow fresh (by rintro j ⟨⟩)
  rw [same] at hrep
  have pages : 1 * pgSize ≤ n * pgSize := Nat.mul_le_mul_right _ hn
  have hfree : s.live (a + sizeofArena) = 0 := by
    apply v.fresh_free fresh (Nat.le_add_right _ _)
    simp only [pgSize, sizeofArena] at *
    omega
  have off : ∀ b i idx, cls b = some i → idx < blocksPerArena i →
      blockAt b i idx ≠ a + sizeofArena := by
    intro b i idx hb hidx he
    have pos := (v.layout.page hb).2.1
    have hba : b ≠ a := by
      rintro rfl
      rw [hnone] at hb
      cases hb
    have := lay'.block_outside (a := a) (by rw [hruns, Function.update_self]; exact hn) hb hba hidx
    have size := blockSize_ge i
    rw [hruns, Function.update_self] at this
    simp only [pgSize, sizeofArena] at *
    omega
  refine ⟨hfree, lay', ?_, ⟨?_, ?_, ?_⟩, ?_⟩
  · refine hrep.weaken ?_ ?_
    · intro b i hb
      have hba : b ≠ a := by
        rintro rfl
        rw [hnone] at hb
        cases hb
      rw [Function.update_of_ne hba]
    · rintro i _ ⟨b, idx, hb, hidx, rfl⟩
      show Function.update s.live _ _ _ = 0 ↔ _
      rw [Function.update_of_ne (off b i idx hb hidx)]
  · intro p hp
    by_cases hpa : p = a + sizeofArena
    · subst hpa
      left
      refine ⟨a, by rw [hruns, Function.update_self]; exact hn, hnone, rfl, ?_⟩
      simpa [hruns] using fits
    · simp only [Function.update_of_ne hpa] at hp ⊢
      rcases v.usage.placed p hp with ⟨b, hb, hc, rfl, hroom⟩ | hsmall
      · have hba : b ≠ a := fun he => hpa (by rw [he])
        left
        exact ⟨b, by rwa [hruns, Function.update_of_ne hba], hc, rfl,
          by rwa [hruns, Function.update_of_ne hba]⟩
      · exact Or.inr hsmall
  · intro b hb hc
    by_cases hba : b = a
    · subst hba; simpa using hs
    · simp only [hruns, Function.update_of_ne hba] at hb
      simpa [hba] using v.usage.large b hb hc
  · intro b i hb
    obtain ⟨idx, hidx, hl⟩ := v.usage.small b i hb
    exact ⟨idx, hidx, by simpa [off b i idx hb hidx] using hl⟩
  · intro b i hb
    rw [v.count b i hb]
    symm
    exact freeCount_other fun idx hidx => off b i idx hb hidx

end View

/-- What a call of sys_malloc leaves: NULL, or a block that was not live, all zero. -/
def MallocOutcome (T : HeapTask) (s : HeapSys) (size p : Nat) (h : Heap) : Prop :=
  (p = 0 ∧ HeapInv T { s with heap := h }) ∨
    (p ≠ 0 ∧ s.live p = 0 ∧ 0 < size ∧ HeapInv T ⟨h, Function.update s.live p size⟩ ∧
      ∀ x, p ≤ x → x < p + capacity h.mem p → h.mem x = 0)

theorem sysMalloc_spec {T : HeapTask} {s : HeapSys} {pages : PageSource} {size : Nat}
    (inv : HeapInv T s) (honest : HeapAllowed T s (.malloc pages size)) (few : FewPages T (.malloc pages size)) :
    Succeeds (sysMalloc T pages size) (MallocOutcome T s size) s.heap := by
  obtain ⟨cls, cnt, v⟩ := inv
  simp only [sysMalloc, Succeeds, wp_ite, wp_pure, wp_bind]
  refine ⟨fun _ => Or.inl ⟨rfl, cls, cnt, v⟩, fun hsize => ?_⟩
  obtain ⟨hs, hpool⟩ := not_not.1 hsize
  have bound : size < 65535 * pgSize := Nat.lt_of_lt_of_le hpool T.pool_small
  refine ⟨fun hbig => ?_, fun hsmall => ?_⟩
  · refine wp_post (mallocLarge_spec v.rep v.layout bound (few hpool) honest) ?_
    rintro p h' (⟨rfl, rfl⟩ | ⟨a, n, rfl, hn, fits, fresh, hruns, hrep, zero⟩)
    · exact Or.inl ⟨rfl, cls, cnt, v⟩
    · obtain ⟨hfree, v'⟩ := v.large_arena fresh hn hs fits hruns hrep
      refine Or.inr ⟨by simp [sizeofArena], hfree, hs, ⟨cls, cnt, v'⟩, ?_⟩
      have hnone := v.no_run_class (fresh.not_run hn)
      have run : h'.runs a = n := by rw [hruns, Function.update_self]
      have room := capacity_large v'.rep v'.layout (a := a) (by rw [run]; exact hn) hnone
      intro x hx hx'
      rw [room, run] at hx'
      exact zero x hx (by omega)
  · refine wp_post (matchDesc_spec v.rep (by omega) (by decide) (by decide)) ?_
    rintro i h ⟨hi, fits, rfl⟩
    rw [wp_onMem]
    refine wp_post (v.rep.empty hi) ?_
    rintro empty m ⟨hempty, rfl⟩
    constructor
    · intro he
      have honest' : ∀ a m, pages 1 = some (a, m) → Fresh T s.heap a 1 := fun a m hp =>
        honest 1 a m (by decide) hp
      have new_free : ∀ a, Fresh T s.heap a 1 → ∀ idx < blocksPerArena i,
          s.live (blockAt a i idx) = 0 := by
        intro a fresh idx hidx
        have inside := block_in_page hidx a
        have size := blockSize_ge i
        simp only [pgSize, sizeofArena] at inside
        exact v.fresh_free fresh (by omega) (by simp only [pgSize]; omega)
      refine wp_post (makeArena_spec v.rep v.layout hi honest' new_free) ?_
      rintro r h' (⟨rfl, rfl⟩ | ⟨rfl, a, fresh, hruns, hrep⟩)
      · exact ⟨fun hf => (Bool.false_ne_true hf).elim, fun _ => Or.inl ⟨rfl, cls, cnt, v⟩⟩
      · refine ⟨fun _ => ?_, fun hn => (hn rfl).elim⟩
        have st := v.stock hi fresh (hempty.1 he) hruns hrep
        refine wp_post (st.take hi hs fits) ?_
        rintro b h'' ⟨hb, hfree, inv, zero⟩
        exact Or.inr ⟨hb, hfree, hs, inv, zero⟩
    · intro hne
      refine ⟨fun _ => ?_, fun hn => (hn trivial).elim⟩
      have some_free : ∃ b, Block cls i b ∧ s.live b = 0 := by
        by_contra hn
        push Not at hn
        exact hne (hempty.2 hn)
      refine wp_post ((v.stocked some_free).take hi hs fits) ?_
      rintro b h'' ⟨hb, hfree, inv, zero⟩
      exact Or.inr ⟨hb, hfree, hs, inv, zero⟩

section View
variable {T : HeapTask} {cls : Nat → Option Nat} {cnt : Nat → Nat} {s : HeapSys}

/-- Small arenas whose blocks avoid a freed pointer keep a live block. -/
theorem HeapView.kept {p a i : Nat} (v : HeapView T s cls cnt) (ha : cls a = some i)
    (off : ∀ idx < blocksPerArena i, blockAt a i idx ≠ p) :
    (∃ idx < blocksPerArena i, 0 < Function.update s.live p 0 (blockAt a i idx)) ∧
      cnt a = freeCount (Function.update s.live p 0) a i := by
  obtain ⟨idx, hidx, hl⟩ := v.usage.small a i ha
  refine ⟨⟨idx, hidx, ?_⟩, ?_⟩
  · rwa [Function.update_of_ne (off idx hidx)]
  · rw [v.count a i ha, freeCount_other off]

/-- A large arena goes when its block is freed. -/
theorem HeapView.drop_large {a : Nat} (v : HeapView T s cls cnt) (ha : 0 < s.heap.runs a)
    (hc : cls a = none) :
    HeapView T ⟨{ s.heap with runs := Function.update s.heap.runs a 0 },
      Function.update s.live (a + sizeofArena) 0⟩ cls cnt := by
  have lay := v.layout.shrink (a := a)
  have rep := v.rep.shrink (a := a) (fun i hi => by rw [hc] at hi; cases hi)
  have same : Function.update cls a none = cls := by rw [← hc, Function.update_eq_self]
  rw [same] at lay rep
  have off : ∀ b i, cls b = some i → ∀ idx < blocksPerArena i,
      blockAt b i idx ≠ a + sizeofArena := by
    intro b i hb idx hidx he
    have hba : b ≠ a := by
      rintro rfl
      rw [hc] at hb
      cases hb
    have := v.layout.block_outside ha hb hba hidx
    have pages : 1 * pgSize ≤ s.heap.runs a * pgSize := Nat.mul_le_mul_right _ ha
    have size := blockSize_ge i
    simp only [pgSize, sizeofArena] at *
    omega
  refine ⟨lay, rep.weaken (fun _ _ _ => rfl) ?_, ⟨?_, ?_, ?_⟩, ?_⟩
  · rintro i _ ⟨b, idx, hb, hidx, rfl⟩
    show Function.update s.live _ _ _ = 0 ↔ _
    rw [Function.update_of_ne (off b i hb idx hidx)]
  · intro p hp
    by_cases hpa : p = a + sizeofArena
    · subst hpa; simp at hp
    · simp only [Function.update_of_ne hpa] at hp ⊢
      rcases v.usage.placed p hp with ⟨b, hb, hcb, rfl, hroom⟩ | hsmall
      · have hba : b ≠ a := fun he => hpa (by rw [he])
        left
        exact ⟨b, by rwa [Function.update_of_ne hba], hcb, rfl, by rwa [Function.update_of_ne hba]⟩
      · exact Or.inr hsmall
  · intro b hb hcb
    have hba : b ≠ a := by
      rintro rfl
      simp at hb
    simp only [Function.update_of_ne hba] at hb
    simpa [hba] using v.usage.large b hb hcb
  · intro b i hb
    exact (v.kept hb (off b i hb)).1
  · intro b i hb
    exact (v.kept hb (off b i hb)).2

/-- Blocks of other arenas are other blocks. -/
theorem HeapView.other_blocks {a b i j idx : Nat} (v : HeapView T s cls cnt)
    (ha : cls a = some i) (hidx : idx < blocksPerArena i) (hb : cls b = some j) (hne : b ≠ a) :
    ∀ k < blocksPerArena j, blockAt b j k ≠ blockAt a i idx := by
  intro k hk he
  have arena := block2arena_block (v.layout.page ha).1.aligned hidx
  have arena' := block2arena_block (v.layout.page hb).1.aligned hk
  rw [he, arena] at arena'
  exact hne arena'.symm

/-- A block goes back to an arena that has other blocks in use. -/
theorem HeapView.put {a i idx : Nat} {h' : Heap} (v : HeapView T s cls cnt) (ha : cls a = some i)
    (hidx : idx < blocksPerArena i) (used : 0 < s.live (blockAt a i idx))
    (room : cnt a + 1 ≠ blocksPerArena i) (hruns : h'.runs = s.heap.runs)
    (hrep : Rep T s.heap.runs cls (Function.update cnt a (cnt a + 1))
      (fun b => s.live b = 0 ∨ b = blockAt a i idx) h'.mem) :
    HeapView T ⟨h', Function.update s.live (blockAt a i idx) 0⟩ cls
      (Function.update cnt a (cnt a + 1)) := by
  have counted : freeCount (Function.update s.live (blockAt a i idx) 0) a i = cnt a + 1 := by
    rw [freeCount_put hidx used, v.count a i ha]
  have le := freeCount_le (Function.update s.live (blockAt a i idx) 0) a i
  refine ⟨by rw [hruns]; exact v.layout, ?_, ⟨?_, ?_, ?_⟩, ?_⟩
  · rw [hruns]
    refine hrep.weaken (fun _ _ _ => rfl) fun j b _ => ?_
    by_cases hb : b = blockAt a i idx
    · subst hb; simp
    · simp [hb]
  · intro p hp
    by_cases hpb : p = blockAt a i idx
    · subst hpb; simp at hp
    · simp only [Function.update_of_ne hpb, hruns] at hp ⊢
      exact v.usage.placed p hp
  · intro b hb hc
    simp only [hruns] at hb
    have hne : b + sizeofArena ≠ blockAt a i idx := by
      intro he
      have pos := (v.layout.page ha).2.1
      have hba : a ≠ b := by
        rintro rfl
        rw [ha] at hc
        cases hc
      have := v.layout.block_outside hb ha hba hidx
      have pages : 1 * pgSize ≤ s.heap.runs b * pgSize := Nat.mul_le_mul_right _ hb
      have size := blockSize_ge i
      simp only [pgSize, sizeofArena] at *
      omega
    show 0 < Function.update s.live _ _ _
    rw [Function.update_of_ne hne]
    exact v.usage.large b hb hc
  · intro b j hb
    by_cases hba : b = a
    · subst hba
      obtain rfl : i = j := by
        rw [ha] at hb
        exact Option.some.inj hb
      exact freeCount_used (Nat.lt_of_le_of_ne le (by rw [counted]; exact room))
    · exact (v.kept hb (v.other_blocks ha hidx hb hba)).1
  · intro b j hb
    by_cases hba : b = a
    · subst hba
      obtain rfl : i = j := by
        rw [ha] at hb
        exact Option.some.inj hb
      rw [Function.update_self]
      exact counted.symm
    · rw [Function.update_of_ne hba]
      exact (v.kept hb (v.other_blocks ha hidx hb hba)).2

/-- The last block in use of an arena takes the arena away. -/
theorem HeapView.drop_small {a i idx : Nat} {h' : Heap} (v : HeapView T s cls cnt)
    (ha : cls a = some i) (hidx : idx < blocksPerArena i) (used : 0 < s.live (blockAt a i idx))
    (full : cnt a + 1 = blocksPerArena i) (hruns : h'.runs = Function.update s.heap.runs a 0)
    (hrep : Rep T h'.runs (Function.update cls a none) cnt
      (fun b => s.live b = 0 ∧ ∀ k < blocksPerArena i, b ≠ blockAt a i k) h'.mem) :
    HeapView T ⟨h', Function.update s.live (blockAt a i idx) 0⟩ (Function.update cls a none)
      cnt := by
  have counted : freeCount (Function.update s.live (blockAt a i idx) 0) a i = blocksPerArena i := by
    rw [freeCount_put hidx used, ← v.count a i ha, full]
  have gone : ∀ k < blocksPerArena i, Function.update s.live (blockAt a i idx) 0 (blockAt a i k) = 0 :=
    fun k hk => freeCount_full counted hk
  refine ⟨by rw [hruns]; exact v.layout.shrink, ?_, ⟨?_, ?_, ?_⟩, ?_⟩
  · refine hrep.weaken (fun _ _ _ => rfl) ?_
    rintro j _ hb
    rcases block_update.1 hb with ⟨hn, -⟩ | ⟨b, k, hba, hcb, hk, rfl⟩
    · cases hn
    · have hne := v.other_blocks ha hidx hcb hba k hk
      show Function.update s.live _ _ _ = 0 ↔ _
      rw [Function.update_of_ne hne]
      constructor
      · intro hf
        exact ⟨hf, fun k' hk' he => v.other_blocks ha hk' hcb hba k hk he⟩
      · exact fun hf => hf.1
  · intro p hp
    have hpb : p ≠ blockAt a i idx := by
      rintro rfl
      simp at hp
    simp only [Function.update_of_ne hpb] at hp ⊢
    rcases v.usage.placed p hp with ⟨b, hb, hcb, rfl, hroom⟩ | ⟨j, ⟨b, k, hcb, hk, rfl⟩, hle⟩
    · have hba : b ≠ a := by
        rintro rfl
        rw [ha] at hcb
        cases hcb
      left
      exact ⟨b, by rwa [hruns, Function.update_of_ne hba], by rwa [Function.update_of_ne hba], rfl,
        by rwa [hruns, Function.update_of_ne hba]⟩
    · have hba : b ≠ a := by
        rintro rfl
        obtain rfl : i = j := by
          rw [ha] at hcb
          exact Option.some.inj hcb
        have hz := gone k hk
        rw [Function.update_of_ne hpb] at hz
        omega
      right
      exact ⟨j, ⟨b, k, by rwa [Function.update_of_ne hba], hk, rfl⟩, hle⟩
  · intro b hb hc
    have hba : b ≠ a := by
      rintro rfl
      rw [hruns, Function.update_self] at hb
      cases hb
    rw [Function.update_of_ne hba] at hc
    simp only [hruns, Function.update_of_ne hba] at hb
    have hne : b + sizeofArena ≠ blockAt a i idx := by
      intro he
      have := v.layout.block_outside hb ha (Ne.symm hba) hidx
      have pages : 1 * pgSize ≤ s.heap.runs b * pgSize := Nat.mul_le_mul_right _ hb
      have size := blockSize_ge i
      simp only [pgSize, sizeofArena] at *
      omega
    show 0 < Function.update s.live _ _ _
    rw [Function.update_of_ne hne]
    exact v.usage.large b hb hc
  · intro b j hb
    have hba : b ≠ a := by
      rintro rfl
      simp at hb
    rw [Function.update_of_ne hba] at hb
    exact (v.kept hb (v.other_blocks ha hidx hb hba)).1
  · intro b j hb
    have hba : b ≠ a := by
      rintro rfl
      simp at hb
    rw [Function.update_of_ne hba] at hb
    exact (v.kept hb (v.other_blocks ha hidx hb hba)).2

end View

theorem sysFree_spec {T : HeapTask} {s : HeapSys} {ptr : Nat} (inv : HeapInv T s)
    (live : 0 < s.live ptr) :
    Succeeds (sysFree T ptr) (fun _ h' => HeapInv T ⟨h', Function.update s.live ptr 0⟩) s.heap := by
  obtain ⟨cls, cnt, v⟩ := inv
  simp only [sysFree, Succeeds, wp_bind, wp_assert, wp_onMem, wp_load, wp_ite]
  rcases v.usage.placed ptr live with ⟨a, ha, hc, rfl, -⟩ | ⟨i, ⟨a, idx, ha, hidx, rfl⟩, -⟩
  · have place := v.layout.placed a ha
    obtain ⟨h0, h4, h8⟩ := v.rep.large a ha hc
    rw [block2arena_add place.aligned (by decide)]
    simp only [h0, h4, h8]
    refine ⟨fun _ => ⟨fun _ => ⟨fun _ => ⟨fun _ => ?_, fun hn => (hn ⟨trivial, trivial⟩).elim⟩,
      fun hn => hn (Or.inr trivial)⟩, fun hn => hn fun hk => ?_⟩, fun hn => hn ?_⟩
    · simp only [mfreePage, wp_bind, wp_get, wp_ite, wp_modify, wp_throw]
      exact ⟨fun _ => ⟨cls, cnt, v.drop_large ha hc⟩, fun hn => hn ⟨ha, trivial⟩⟩
    · exact Nat.le_trans (place.kernel hk) (Nat.le_add_right _ _)
    · simp [sizeofArena]
  · have page := v.layout.page ha
    have hb : Block cls i (blockAt a i idx) := ⟨a, idx, ha, hidx, rfl⟩
    obtain ⟨pos, -, kernel, -⟩ := v.layout.block_placed hb
    obtain ⟨h0, -, h8⟩ := v.rep.small a i ha
    rw [block2arena_block page.1.aligned hidx]
    simp only [h0, h8]
    refine ⟨fun _ => ⟨fun _ => ⟨fun _ => ⟨fun hn => (descAt_pos T i hn.1).elim, fun _ => ?_⟩,
      fun hn => hn (Or.inl trivial)⟩, fun hn => hn kernel⟩, fun hn => hn (Nat.ne_of_gt pos)⟩
    have counted := v.count a i ha
    have lt := freeCount_lt hidx live
    have blocks := blocksPerArena_lt i
    have full : cnt a + 1 = blocksPerArena i → ∀ k < blocksPerArena i, k ≠ idx →
        s.live (blockAt a i k) = 0 := by
      intro heq k hk hki
      have all : freeCount (Function.update s.live (blockAt a i idx) 0) a i = blocksPerArena i := by
        rw [freeCount_put hidx live, ← counted, heq]
      have hz := freeCount_full all hk
      rwa [Function.update_of_ne fun he => hki (blockAt_inj he)] at hz
    refine wp_post (freeBlock_spec v.rep v.layout ha hidx (Nat.ne_of_gt live) (by omega) full) ?_
    rintro - h' (⟨room, hruns, hrep⟩ | ⟨heq, hruns, hrep⟩)
    · exact ⟨cls, _, v.put ha hidx live room hruns hrep⟩
    · exact ⟨_, cnt, v.drop_small ha hidx live heq hruns hrep⟩

/-- The first k descriptors are filled in. -/
def Described (T : HeapTask) (k : Nat) (m : Mem) : Prop :=
  ∀ i < k, m (descAt T i) = blockSize i ∧ m (blocksPerArenaOf (descAt T i)) = blocksPerArena i ∧
    IsList m (listAt T i) []

theorem Described.frame {T : HeapTask} {k : Nat} {m m' : Mem} (h : Described T k m)
    (same : ∀ x < descAt T k, m' x = m x) : Described T k m' := by
  intro i hi
  obtain ⟨h0, h4, hl⟩ := h i hi
  have below : ∀ c < sizeofDesc, descAt T i + c < descAt T k := by
    intro c hc
    simp only [descAt, sizeofDesc] at *
    omega
  refine ⟨?_, ?_, ?_⟩
  · exact (same _ (below 0 (by decide))).trans h0
  · exact (same _ (below 4 (by decide))).trans h4
  · refine hl.congr fun y hy x hyx hxy => same x ?_
    have last := below 23 (by decide)
    simp only [nodes, List.cons_append, List.nil_append, List.mem_cons, List.not_mem_nil, or_false,
      listAt, tailOf, freeListOf] at hy
    omega

theorem blockDescInitFrom_spec {T : HeapTask} {n k : Nat} {h : Heap} (left : n + k = descCnt)
    (done : Described T k h.mem) :
    Succeeds (blockDescInitFrom n (descAt T k) (blockSize k))
      (fun _ h' => Described T descCnt h'.mem ∧ h'.runs = h.runs) h := by
  induction n generalizing k h with
  | zero =>
    obtain rfl : k = descCnt := by omega
    exact (wp_pure _).2 ⟨done, rfl⟩
  | succ n ih =>
    simp only [blockDescInitFrom, Succeeds, wp_bind, wp_onMem, wp_store]
    refine wp_post listInit_spec ?_
    rintro - m ⟨hlist, same⟩
    have next : descAt T k + sizeofDesc = descAt T (k + 1) := by
      simp only [descAt, sizeofDesc]
      omega
    have double : blockSize k * 2 % 2 ^ 16 = blockSize (k + 1) := by
      have hk : k < 7 := by
        simp only [descCnt] at left
        omega
      interval_cases k <;> decide
    rw [next, double]
    refine ih (h := { h with mem := m }) (by omega) ?_
    have outside : ∀ x, x < descAt T k ∨ x = descAt T k ∨ x = blocksPerArenaOf (descAt T k) →
        m x = Function.update (Function.update h.mem (descAt T k) (blockSize k))
          (blocksPerArenaOf (descAt T k)) (blocksPerArena k) x := by
      intro x hx
      apply same
      simp only [freeListOf, blocksPerArenaOf] at *
      omega
    have earlier : Described T k m := by
      apply done.frame
      intro x hx
      rw [outside x (Or.inl hx), Function.update_of_ne, Function.update_of_ne]
      · omega
      · unfold blocksPerArenaOf
        omega
    intro i hi
    rcases Nat.lt_succ_iff_lt_or_eq.1 hi with hlt | rfl
    · exact earlier i hlt
    · refine ⟨?_, ?_, hlist⟩
      · apply (outside _ (Or.inr (Or.inl rfl))).trans
        rw [Function.update_of_ne (by unfold blocksPerArenaOf; omega), Function.update_self]
      · apply (outside _ (Or.inr (Or.inr rfl))).trans
        rw [Function.update_self]

theorem described_of_run {T : HeapTask} {h h' : Heap} {n : Nat} (hn : n = descCnt)
    (run : blockDescInitFrom n T.descs 16 h = .ok ((), h')) : Described T descCnt h'.mem := by
  have first : Described T 0 h.mem := by
    intro i hi
    cases hi
  have spec := blockDescInitFrom_spec (k := 0) hn first
  rw [show descAt T 0 = T.descs by simp [descAt], show blockSize 0 = 16 from rfl] at spec
  exact ((wp_of_ok run).1 spec).1

theorem HeapStart.inv {T : HeapTask} {s : HeapSys} (start : HeapStart T s) : HeapInv T s := by
  obtain ⟨runs, live, h, run⟩ := start
  have described : Described T descCnt s.heap.mem := described_of_run rfl run
  refine ⟨fun _ => none, fun _ => 0, ⟨?_, ?_, ?_⟩, ⟨?_, ?_, ?_, ?_⟩, ⟨?_, ?_, ?_⟩, ?_⟩
  · intro a ha
    rw [runs] at ha
    cases ha
  · intro a b _ ha
    rw [runs] at ha
    cases ha
  · rintro a i ⟨⟩
  · intro i hi
    exact ⟨(described i hi).1, (described i hi).2.1⟩
  · rintro a i ⟨⟩
  · intro a ha
    rw [runs] at ha
    cases ha
  · intro i hi
    refine ⟨[], (described i hi).2.2, fun b => ?_⟩
    constructor
    · rintro ⟨⟩
    · rintro ⟨⟨a, idx, hn, -⟩, -⟩
      cases hn
  · intro p hp
    rw [live] at hp
    cases hp
  · intro a ha
    rw [runs] at ha
    cases ha
  · rintro a i ⟨⟩
  · rintro a i ⟨⟩

/-- The heap in a memory of zeros. -/
def emptyHeap (T : HeapTask) : HeapSys :=
  match blockDescInit T.descs ⟨fun _ => 0, fun _ => 0⟩ with
  | .ok (_, h) => ⟨h, fun _ => 0⟩
  | .error _ => ⟨⟨fun _ => 0, fun _ => 0⟩, fun _ => 0⟩

theorem emptyHeap_start (T : HeapTask) : HeapStart T (emptyHeap T) := by
  have first : Described T 0 fun _ => 0 := by
    intro i hi
    cases hi
  obtain ⟨n, hn⟩ : ∃ n, n = descCnt := ⟨_, rfl⟩
  have spec := blockDescInitFrom_spec (k := 0) (h := ⟨fun _ => 0, fun _ => 0⟩) hn first
  obtain ⟨_, heap, run, -, hruns⟩ := succeeds_iff.1 spec
  rw [hn] at run
  have start : emptyHeap T = ⟨heap, fun _ => 0⟩ := by
    have run' : blockDescInit T.descs ⟨fun _ => 0, fun _ => 0⟩ = .ok ((), heap) := run
    rw [emptyHeap, run']
  rw [start]
  exact ⟨fun a => by rw [hruns], fun _ => rfl, ⟨fun _ => 0, fun _ => 0⟩, run⟩

theorem exists_heapStart (T : HeapTask) : ∃ s, HeapStart T s := ⟨_, emptyHeap_start T⟩

/-- A task writes into a live block. -/
theorem HeapView.write {T : HeapTask} {s : HeapSys} {cls : Nat → Option Nat} {cnt : Nat → Nat}
    {p x w : Nat} (v : HeapView T s cls cnt) (hx : p ≤ x) (hx' : x < p + s.live p) :
    HeapView T { s with heap := { s.heap with mem := Function.update s.heap.mem x w } } cls cnt := by
  refine ⟨v.layout, v.rep.congr v.layout ?_, v.usage, v.count⟩
  intro y hy
  have hne : y ≠ x := by
    rintro rfl
    rcases v.usage.placed p (by omega) with ⟨a, ha, hc, rfl, hroom⟩ | ⟨i, hb, hle⟩
    · rcases hy with hd | ⟨b, hb, hby, hyb⟩ | ⟨i, b, ⟨a', idx, ha', hidx, rfl⟩, -, hby, hyb⟩
      · have := (v.layout.placed a ha).descs
        simp only [NoOverlap] at this
        omega
      · by_cases hba : b = a
        · subst hba
          omega
        · have := v.layout.disjoint b a hba hb ha
          have pages : 1 * pgSize ≤ s.heap.runs b * pgSize := Nat.mul_le_mul_right _ hb
          simp only [NoOverlap, pgSize, sizeofArena] at *
          omega
      · have hba : a' ≠ a := by
          rintro rfl
          rw [hc] at ha'
          cases ha'
        have := v.layout.block_outside ha ha' hba hidx
        have size := blockSize_ge i
        omega
    · rcases hy with hd | ⟨a, ha, hay, hya⟩ | ⟨j, b, hb', hf, hby, hyb⟩
      · have := (v.layout.block_placed hb).2.2.2
        omega
      · have := v.layout.block_header hb ha
        omega
      · have hne : p ≠ b := by
          rintro rfl
          omega
        have := v.layout.block_apart hb hb' hne
        have size := blockSize_ge j
        omega
  exact Function.update_of_ne hne _ _

theorem wp_onHeap {α : Type} {c : Kern Heap α} {Q : α → HeapSys → Prop} {E : Fault → Prop}
    {s : HeapSys} :
    wp (onHeap c) Q E s ↔ wp c (fun a h => Q a { s with heap := h }) E s.heap :=
  wp_zoom

theorem heapPerform_spec {T : HeapTask} {s : HeapSys} (inv : HeapInv T s) {e : HeapEvent}
    (allowed : HeapAllowed T s e) (few : FewPages T e) : Succeeds (heapPerform T e) (fun _ t => HeapInv T t) s := by
  cases e with
  | malloc pages size =>
    simp only [heapPerform, Succeeds, wp_bind, wp_onHeap, wp_ite, wp_modify, wp_pure]
    refine wp_post (sysMalloc_spec inv allowed few) ?_
    rintro p h' (⟨rfl, inv'⟩ | ⟨hp, -, -, inv', -⟩)
    · exact ⟨fun hn => (hn rfl).elim, fun _ => inv'⟩
    · exact ⟨fun _ => inv', fun hn => (hn hp).elim⟩
  | free ptr =>
    simp only [heapPerform, Succeeds, wp_bind, wp_onHeap, wp_modify, wp_pure]
    exact sysFree_spec inv allowed
  | write x w =>
    obtain ⟨p, hx, hx'⟩ := allowed
    obtain ⟨cls, cnt, v⟩ := inv
    simp only [heapPerform, Succeeds, wp_bind, wp_onHeap, wp_onMem, wp_store, wp_pure]
    exact ⟨cls, cnt, v.write hx hx'⟩

/-- A request that comes back was for fewer than 3840 pages. -/
theorem heapPerform_few {T : HeapTask} {s : HeapSys} {e : HeapEvent} {Q : Nat → HeapSys → Prop}
    (run : Succeeds (heapPerform T e) Q s) : FewPages T e := by
  cases e with
  | malloc pages size =>
    intro below
    simp only [heapPerform, Succeeds, wp_bind, wp_onHeap, sysMalloc, wp_ite] at run
    by_cases big : 0 < size ∧ 1024 < size
    · have large := (run.2 (not_not.2 ⟨big.1, below⟩)).1 big.2
      simp only [mallocLarge, mallocPage, wp_bind, wp_assert] at large
      by_contra many
      exact large.2 fun few => many few.2
    · simp only [divRoundUp, sizeofArena, pgSize]
      omega
  | free ptr => trivial
  | write x w => trivial

/-- The next call returns exactly when it asks for fewer than 3840 pages. -/
theorem heapPerform_returns {T : HeapTask} {s : HeapSys} (inv : HeapInv T s) {e : HeapEvent} (allowed : HeapAllowed T s e) :
    (∃ p t, heapPerform T e s = .ok (p, t)) ↔ FewPages T e := by
  constructor
  · rintro ⟨p, t, run⟩
    exact heapPerform_few (succeeds_iff.2 ⟨p, t, run, trivial⟩ : Succeeds (heapPerform T e) (fun _ _ => True) s)
  · intro few
    obtain ⟨p, t, run, -⟩ := succeeds_iff.1 (heapPerform_spec inv allowed few)
    exact ⟨p, t, run⟩

theorem reachable_heapInv {T : HeapTask} {s : HeapSys}
    (h : Reachable (HeapStart T) (HeapStep T) s) : HeapInv T s := by
  refine h.invariant (fun s hs => hs.inv) ?_
  rintro s t inv ⟨e, p, allowed, ht⟩
  exact (wp_of_ok ht).1 (heapPerform_spec inv allowed ((heapPerform_returns inv allowed).1 ⟨p, t, ht⟩))

/-- The arenas of class i, as their headers say. -/
def SmallArena (T : HeapTask) (s : HeapSys) (a i : Nat) : Prop :=
  0 < s.heap.runs a ∧ i < descCnt ∧ s.heap.mem a = descAt T i

theorem HeapView.smallArena_iff {T : HeapTask} {s : HeapSys} {cls : Nat → Option Nat}
    {cnt : Nat → Nat} (v : HeapView T s cls cnt) {a i : Nat} :
    SmallArena T s a i ↔ cls a = some i := by
  constructor
  · rintro ⟨pos, -, hm⟩
    cases hc : cls a with
    | none =>
      rw [(v.rep.large a pos hc).1] at hm
      exact (descAt_pos T i hm.symm).elim
    | some j =>
      rw [(v.rep.small a j hc).1] at hm
      rw [descAt_inj hm]
  · intro hc
    have page := v.layout.page hc
    exact ⟨page.2.1, page.2.2.2, (v.rep.small a i hc).1⟩

/-- A live pointer has room for what was asked, off every header and off the room of
every other live pointer. -/
theorem HeapView.room {T : HeapTask} {s : HeapSys} {cls : Nat → Option Nat} {cnt : Nat → Nat}
    (v : HeapView T s cls cnt) {p : Nat} (hp : 0 < s.live p) :
    s.live p ≤ capacity s.heap.mem p ∧
      (∀ a, 0 < s.heap.runs a → NoOverlap a sizeofArena p (capacity s.heap.mem p)) ∧
      ∀ q, 0 < s.live q → p ≠ q →
        NoOverlap p (capacity s.heap.mem p) q (capacity s.heap.mem q) := by
  -- where a live pointer and its room lie
  have lies : ∀ q, 0 < s.live q → (∃ a, 0 < s.heap.runs a ∧ cls a = none ∧ q = a + sizeofArena ∧
        s.live q ≤ capacity s.heap.mem q ∧
        q + capacity s.heap.mem q = a + s.heap.runs a * pgSize) ∨
      ∃ i, Block cls i q ∧ s.live q ≤ blockSize i ∧ capacity s.heap.mem q = blockSize i := by
    intro q hq
    rcases v.usage.placed q hq with ⟨a, ha, hc, rfl, hroom⟩ | ⟨i, hb, hle⟩
    · left
      have pages : 1 * pgSize ≤ s.heap.runs a * pgSize := Nat.mul_le_mul_right _ ha
      have cap := capacity_large v.rep v.layout ha hc
      simp only [pgSize, sizeofArena] at *
      exact ⟨a, ha, hc, rfl, by omega, by omega⟩
    · right
      obtain ⟨a, idx, ha, hidx, rfl⟩ := hb
      exact ⟨i, ⟨a, idx, ha, hidx, rfl⟩, hle, capacity_small v.rep v.layout ha hidx⟩
  have pages : ∀ a, 0 < s.heap.runs a → 1 * pgSize ≤ s.heap.runs a * pgSize :=
    fun a ha => Nat.mul_le_mul_right _ ha
  rcases lies p hp with ⟨a, ha, hc, hpa, fits, hend⟩ | ⟨i, hb, hle, hcap⟩
  · refine ⟨fits, ?_, ?_⟩
    · intro b hb
      by_cases hba : b = a
      · subst hba
        exact Or.inl (Nat.le_of_eq hpa.symm)
      · have := v.layout.disjoint b a hba hb ha
        have := pages b hb
        simp only [NoOverlap, pgSize, sizeofArena] at *
        omega
    · intro q hq hpq
      rcases lies q hq with ⟨b, hb, hcb, hqb, -, hend'⟩ | ⟨j, ⟨b, idx, hb, hidx, rfl⟩, -, hcap'⟩
      · have hab : a ≠ b := fun he => hpq (by rw [hpa, hqb, he])
        have := v.layout.disjoint a b hab ha hb
        simp only [NoOverlap, pgSize, sizeofArena] at *
        omega
      · have hba : b ≠ a := by
          rintro rfl
          rw [hc] at hb
          cases hb
        have := v.layout.block_outside ha hb hba hidx
        simp only [NoOverlap, sizeofArena] at *
        omega
  · refine ⟨by omega, ?_, ?_⟩
    · intro b hb'
      have := v.layout.block_header hb hb'
      simp only [NoOverlap] at *
      omega
    · intro q hq hpq
      rcases lies q hq with ⟨b, hb', hcb, hqb, -, hend'⟩ | ⟨j, hb', -, hcap'⟩
      · obtain ⟨a, idx, ha, hidx, rfl⟩ := hb
        have hab : a ≠ b := by
          rintro rfl
          rw [hcb] at ha
          cases ha
        have := v.layout.block_outside hb' ha hab hidx
        simp only [NoOverlap, sizeofArena] at *
        omega
      · have := v.layout.block_apart hb hb' hpq
        simp only [NoOverlap] at *
        omega

/-- Every free block of a class is in its list exactly once, and no other address. -/
theorem HeapView.freeList {T : HeapTask} {s : HeapSys} {cls : Nat → Option Nat} {cnt : Nat → Nat}
    (v : HeapView T s cls cnt) {i : Nat} (hi : i < descCnt) :
    ∃ xs, IsList s.heap.mem (listAt T i) xs ∧ xs.Nodup ∧ ∀ b, b ∈ xs ↔
      (∃ a, SmallArena T s a i ∧ ∃ idx < blocksPerArena i, b = blockAt a i idx) ∧ s.live b = 0 := by
  obtain ⟨xs, hxs, hmem⟩ := v.rep.lists i hi
  refine ⟨xs, hxs, ?_, fun b => (hmem b).trans ?_⟩
  · have := nodup_of_apart hxs.apart
    unfold nodes at this
    grind
  · apply and_congr_left'
    constructor
    · rintro ⟨a, idx, ha, hidx, hb⟩
      exact ⟨a, v.smallArena_iff.2 ha, idx, hidx, hb⟩
    · rintro ⟨a, ha, idx, hidx, hb⟩
      exact ⟨a, idx, v.smallArena_iff.1 ha, hidx, hb⟩

/-- In every state the heap of a task reaches: live blocks have the room asked for, off
one another and off every arena header; each free list holds the free blocks of its
arenas exactly once and nothing else; the counter of each small arena is its number
of free blocks, below blocks_per_arena; the next call returns exactly when it asks for
fewer than 3840 pages; and sys_malloc returns a block that was not live, all zero. -/
theorem heap_invariant {T : HeapTask} {s : HeapSys}
    (h : Reachable (HeapStart T) (HeapStep T) s) :
    (∀ p, 0 < s.live p → s.live p ≤ capacity s.heap.mem p ∧
      (∀ a, 0 < s.heap.runs a → NoOverlap a sizeofArena p (capacity s.heap.mem p)) ∧
      ∀ q, 0 < s.live q → p ≠ q →
        NoOverlap p (capacity s.heap.mem p) q (capacity s.heap.mem q)) ∧
    (∀ i < descCnt, ∃ xs, IsList s.heap.mem (listAt T i) xs ∧ xs.Nodup ∧ ∀ b, b ∈ xs ↔
      (∃ a, SmallArena T s a i ∧ ∃ idx < blocksPerArena i, b = blockAt a i idx) ∧
        s.live b = 0) ∧
    (∀ a i, SmallArena T s a i → s.heap.mem (cntOf a) = freeCount s.live a i ∧
      s.heap.mem (cntOf a) < s.heap.mem (blocksPerArenaOf (descAt T i))) ∧
    (∀ e, HeapAllowed T s e → ((∃ p t, heapPerform T e s = .ok (p, t)) ↔ FewPages T e)) ∧
    ∀ pages size p t, HeapAllowed T s (.malloc pages size) →
      heapPerform T (.malloc pages size) s = .ok (p, t) → p ≠ 0 →
      s.live p = 0 ∧ t.live p = size ∧ ∀ x, p ≤ x → x < p + capacity t.heap.mem p →
        t.heap.mem x = 0 := by
  have inv := reachable_heapInv h
  obtain ⟨cls, cnt, v⟩ := reachable_heapInv h
  refine ⟨fun p hp => v.room hp, fun i hi => v.freeList hi, ?_, ?_, ?_⟩
  · intro a i ha
    have hc := v.smallArena_iff.1 ha
    obtain ⟨idx, hidx, hl⟩ := v.usage.small a i hc
    rw [(v.rep.small a i hc).2.1, (v.rep.desc i ha.2.1).2, v.count a i hc]
    exact ⟨rfl, freeCount_lt hidx hl⟩
  · exact fun e allowed => heapPerform_returns inv allowed
  · intro pages size p t allowed run hp
    have few := (heapPerform_returns inv allowed).1 ⟨p, t, run⟩
    have spec : Succeeds (heapPerform T (.malloc pages size)) (fun p t => p ≠ 0 → s.live p = 0 ∧
        t.live p = size ∧ ∀ x, p ≤ x → x < p + capacity t.heap.mem p → t.heap.mem x = 0) s := by
      simp only [heapPerform, Succeeds, wp_bind, wp_onHeap, wp_ite, wp_modify, wp_pure]
      refine wp_post (sysMalloc_spec inv allowed few) ?_
      rintro p h' (⟨rfl, -⟩ | ⟨hp, hfree, -, -, zero⟩)
      · exact ⟨fun hn => (hn rfl).elim, fun _ hn => (hn rfl).elim⟩
      · exact ⟨fun _ _ => ⟨hfree, Function.update_self _ _ _, zero⟩, fun hn => (hn hp).elim⟩
    exact (wp_of_ok run).1 spec hp

/-- A kernel thread on a machine of 32 MB, and a malloc_page that hands out the first page
of the kernel's heap, filled with 0xcc, and no more than that. -/
def kernelTask : HeapTask where
  kernel := true
  descs := 0xc0010000
  poolSize := 3840 * pgSize
  descs_pos := by decide
  pool_small := by decide

def firstPage : PageSource := fun n => if n = 1 then some (kHeapStart, fun _ => 0xcc) else none

theorem firstPage_honest {s : HeapSys} (nothing : ∀ a, s.heap.runs a = 0) (size : Nat) :
    HeapAllowed kernelTask s (.malloc firstPage size) := by
  intro n a m _ hp
  unfold firstPage at hp
  split at hp
  · next one =>
    cases hp
    subst one
    refine ⟨by decide, by decide, by decide, fun _ => Nat.le_refl _, Or.inr (by decide), ?_⟩
    intro b hb
    rw [nothing] at hb
    cases hb
  · cases hp

/-- The heap behind an event. -/
def heapBehind (T : HeapTask) (e : HeapEvent) (s : HeapSys) : HeapSys :=
  match heapPerform T e s with
  | .ok (_, t) => t
  | .error _ => s

theorem heapBehind_reachable {T : HeapTask} {e : HeapEvent} {s : HeapSys} (h : Reachable (HeapStart T) (HeapStep T) s)
    (allowed : HeapAllowed T s e) (few : FewPages T e) : Reachable (HeapStart T) (HeapStep T) (heapBehind T e s) := by
  obtain ⟨p, t, run⟩ := (heapPerform_returns (reachable_heapInv h) allowed).2 few
  have behind : heapBehind T e s = t := by
    rw [heapBehind, run]
  rw [behind]
  exact h.step ⟨e, p, allowed, run⟩

/-- The thread takes two blocks of 1024 bytes from one page and frees the first. -/
def twoTaken : HeapSys :=
  heapBehind kernelTask (.malloc (fun _ => none) 1000) (heapBehind kernelTask (.malloc firstPage 1000) (emptyHeap kernelTask))

def oneFreed : HeapSys := heapBehind kernelTask (.free (kHeapStart + 12)) twoTaken

theorem oneFreed_reachable : Reachable (HeapStart kernelTask) (HeapStep kernelTask) oneFreed := by
  have start := emptyHeap_start kernelTask
  have taken := heapBehind_reachable (.start start) (firstPage_honest start.1 1000) fun _ => by decide
  have nothing (s : HeapSys) : HeapAllowed kernelTask s (.malloc (fun _ => none) 1000) := by
    intro n a m _ hp
    cases hp
  have live : 0 < twoTaken.live (kHeapStart + 12) := by decide +kernel
  exact heapBehind_reachable (heapBehind_reachable taken (nothing _) fun _ => by decide) live trivial

/-- The freed block is in its list and the other is not, the counter of the arena is 2, and
freeing the other one returns. -/
theorem heap_invariant_kernel : Reachable (HeapStart kernelTask) (HeapStep kernelTask) oneFreed ∧
    (∃ xs, IsList oneFreed.heap.mem (listAt kernelTask 6) xs ∧ xs.Nodup ∧ kHeapStart + 12 ∈ xs ∧ kHeapStart + 1036 ∉ xs) ∧
    NoOverlap kHeapStart sizeofArena (kHeapStart + 1036) (capacity oneFreed.heap.mem (kHeapStart + 1036)) ∧
    oneFreed.heap.mem (cntOf kHeapStart) = freeCount oneFreed.live kHeapStart 6 ∧
    freeCount oneFreed.live kHeapStart 6 = 2 ∧
    (∃ p t, heapPerform kernelTask (.free (kHeapStart + 1036)) oneFreed = .ok (p, t)) ∧
    ¬ ∃ p t, heapPerform kernelTask (.malloc (fun _ => none) 15724544) oneFreed = .ok (p, t) := by
  obtain ⟨room, lists, counts, returns, -⟩ := heap_invariant oneFreed_reachable
  have arena : SmallArena kernelTask oneFreed kHeapStart 6 := ⟨by decide +kernel, by decide, by decide +kernel⟩
  have freed : oneFreed.live (kHeapStart + 12) = 0 := by decide +kernel
  have live : 0 < oneFreed.live (kHeapStart + 1036) := by decide +kernel
  obtain ⟨xs, list, once, mem⟩ := lists 6 (by decide)
  have there : kHeapStart + 12 ∈ xs := (mem _).2 ⟨⟨kHeapStart, arena, 0, by decide, rfl⟩, freed⟩
  have away : kHeapStart + 1036 ∉ xs := fun inside => Nat.ne_of_gt live ((mem _).1 inside).2
  have nothing : HeapAllowed kernelTask oneFreed (.malloc (fun _ => none) 15724544) := by
    intro n a m _ hp
    cases hp
  refine ⟨oneFreed_reachable, ⟨xs, list, once, there, away⟩, (room _ live).2.1 kHeapStart arena.1, (counts _ _ arena).1, by decide +kernel,
    (returns (.free _) live).2 trivial, fun run => ?_⟩
  have few := (returns _ nothing).1 run
  exact absurd (few (by decide)) (by decide)

/-- Fresh pages for a kernel thread, whose request for 3840 of them fails the ASSERT of malloc_page. -/
theorem request_of_3840_pages : ∃ s, HeapStart kernelTask s ∧ HeapAllowed kernelTask s (.malloc firstPage 15724544) ∧
    ¬ ∃ p t, heapPerform kernelTask (.malloc firstPage 15724544) s = .ok (p, t) := by
  have start := emptyHeap_start kernelTask
  have allowed := firstPage_honest start.1 15724544
  refine ⟨_, start, allowed, fun run => ?_⟩
  have few := (heapPerform_returns start.inv allowed).1 run
  exact absurd (few (by decide)) (by decide)

end Zhenxiang.Kernel
