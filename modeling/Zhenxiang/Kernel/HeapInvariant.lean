import Zhenxiang.Kernel.Heap

/-! The heap in good order. An arena is either large, or of one of the seven classes
and cut into blocks; the layout of arenas and blocks is stated without memory, and
what memory has to say of it is a relation of its own. -/
namespace Zhenxiang.Kernel
open Lib

/-- block_size and blocks_per_arena of each class. -/
def blockSize (i : Nat) : Nat := 16 * 2 ^ i
def blocksPerArena (i : Nat) : Nat := (pgSize - sizeofArena) / blockSize i

def blockAt (a i idx : Nat) : Nat := a + sizeofArena + idx * blockSize i

def descAt (T : HeapTask) (i : Nat) : Nat := T.descs + i * sizeofDesc
def listAt (T : HeapTask) (i : Nat) : Nat := freeListOf (descAt T i)

/-- The blocks of class i, where cls gives the class of each small arena. -/
def Block (cls : Nat → Option Nat) (i b : Nat) : Prop :=
  ∃ a idx, cls a = some i ∧ idx < blocksPerArena i ∧ b = blockAt a i idx

/-- What can be linked up in the free list of class i. -/
def Node (T : HeapTask) (cls : Nat → Option Nat) (i y : Nat) : Prop :=
  y = listAt T i ∨ y = tailOf (listAt T i) ∨ Block cls i y

structure Placed (T : HeapTask) (a n : Nat) : Prop where
  aligned : pgSize ∣ a
  pos : 0 < a
  below : a + n * pgSize ≤ 2 ^ 32
  kernel : T.kernel = true → kHeapStart ≤ a
  descs : NoOverlap a (n * pgSize) T.descs (descCnt * sizeofDesc)

structure Layout (T : HeapTask) (runs : Nat → Nat) (cls : Nat → Option Nat) : Prop where
  placed : ∀ a, 0 < runs a → Placed T a (runs a)
  disjoint : ∀ a b, a ≠ b → 0 < runs a → 0 < runs b →
    NoOverlap a (runs a * pgSize) b (runs b * pgSize)
  small : ∀ a i, cls a = some i → runs a = 1 ∧ i < descCnt

theorem blockSize_ge (i : Nat) : 16 ≤ blockSize i := by
  unfold blockSize
  have := Nat.one_le_two_pow (n := i)
  omega

theorem block_in_page {i idx : Nat} (h : idx < blocksPerArena i) (a : Nat) :
    a + sizeofArena ≤ blockAt a i idx ∧ blockAt a i idx + blockSize i ≤ a + pgSize := by
  have total : blocksPerArena i * blockSize i ≤ pgSize - sizeofArena := Nat.div_mul_le_self _ _
  have upto : (idx + 1) * blockSize i ≤ blocksPerArena i * blockSize i :=
    Nat.mul_le_mul_right _ h
  rw [Nat.succ_mul] at upto
  unfold blockAt
  simp only [pgSize, sizeofArena] at total ⊢
  omega

/-- Two blocks of one arena are the same block or have no byte in common. -/
theorem blockAt_apart {a i idx idx' : Nat} (h : idx < idx') :
    blockAt a i idx + blockSize i ≤ blockAt a i idx' := by
  have upto : (idx + 1) * blockSize i ≤ idx' * blockSize i := Nat.mul_le_mul_right _ h
  rw [Nat.succ_mul] at upto
  unfold blockAt
  omega

theorem blockAt_inj {a i idx idx' : Nat} (h : blockAt a i idx = blockAt a i idx') : idx = idx' := by
  have size := blockSize_ge i
  rcases Nat.lt_trichotomy idx idx' with hlt | rfl | hlt
  · have := blockAt_apart (a := a) (i := i) hlt
    omega
  · rfl
  · have := blockAt_apart (a := a) (i := i) hlt
    omega

section Geometry
variable {T : HeapTask} {runs : Nat → Nat} {cls : Nat → Option Nat} (lay : Layout T runs cls)
include lay

theorem Layout.page {a i : Nat} (h : cls a = some i) :
    Placed T a 1 ∧ 0 < runs a ∧ runs a = 1 ∧ i < descCnt := by
  obtain ⟨one, hi⟩ := lay.small a i h
  have pos : 0 < runs a := by omega
  exact ⟨one ▸ lay.placed a pos, pos, one, hi⟩

theorem Layout.arenas_apart {a b i : Nat} (ha : cls a = some i) (hb : 0 < runs b) (hne : a ≠ b) :
    a + pgSize ≤ b ∨ b + pgSize ≤ a := by
  obtain ⟨-, pos, one, -⟩ := lay.page ha
  have := lay.disjoint a b hne pos hb
  simp only [NoOverlap, pgSize, one] at this ⊢
  omega

theorem Layout.block_placed {i b : Nat} (h : Block cls i b) :
    0 < b ∧ b + blockSize i ≤ 2 ^ 32 ∧ (T.kernel = true → kHeapStart ≤ b) ∧
      (b + blockSize i ≤ T.descs ∨ T.descs + descCnt * sizeofDesc ≤ b) := by
  obtain ⟨a, idx, ha, hidx, rfl⟩ := h
  have place := (lay.page ha).1
  have inside := block_in_page hidx a
  have below := place.below
  have descs := place.descs
  simp only [NoOverlap, pgSize, sizeofArena] at inside below descs ⊢
  refine ⟨by omega, by omega, fun hk => ?_, by omega⟩
  have := place.kernel hk
  omega

theorem Layout.block_apart {i j b c : Nat} (hb : Block cls i b) (hc : Block cls j c)
    (hne : b ≠ c) : b + blockSize i ≤ c ∨ c + blockSize j ≤ b := by
  obtain ⟨a, idx, ha, hidx, rfl⟩ := hb
  obtain ⟨a', idx', ha', hidx', rfl⟩ := hc
  by_cases he : a = a'
  · subst he
    obtain rfl : i = j := by
      rw [ha] at ha'
      exact Option.some.inj ha'
    rcases Nat.lt_trichotomy idx idx' with hlt | rfl | hlt
    · exact Or.inl (blockAt_apart hlt)
    · exact (hne rfl).elim
    · exact Or.inr (blockAt_apart hlt)
  · have inside := block_in_page hidx a
    have inside' := block_in_page hidx' a'
    have pages := lay.arenas_apart ha (lay.page ha').2.1 he
    omega

/-- A block belongs to one class only. -/
theorem Layout.block_class {i j b : Nat} (hi : Block cls i b) (hj : Block cls j b) : i = j := by
  obtain ⟨a, idx, ha, hidx, rfl⟩ := hi
  obtain ⟨a', idx', ha', hidx', he⟩ := hj
  have inside := block_in_page hidx a
  have inside' := block_in_page hidx' a'
  have size := blockSize_ge i
  have size' := blockSize_ge j
  by_cases hne : a = a'
  · subst hne
    rw [ha] at ha'
    exact Option.some.inj ha'
  · have pages := lay.arenas_apart ha (lay.page ha').2.1 hne
    simp only [sizeofArena] at inside inside'
    omega

theorem Layout.block_header {i b a : Nat} (hb : Block cls i b) (ha : 0 < runs a) :
    b + blockSize i ≤ a ∨ a + sizeofArena ≤ b := by
  obtain ⟨a', idx, ha', hidx, rfl⟩ := hb
  have inside := block_in_page hidx a'
  by_cases he : a' = a
  · subst he
    exact Or.inr inside.1
  · have pages := lay.arenas_apart ha' ha he
    simp only [pgSize, sizeofArena] at inside pages ⊢
    omega

theorem Layout.node_apart {i j y z : Nat} (hi : i < descCnt) (hj : j < descCnt)
    (hy : Node T cls i y) (hz : Node T cls j z) (hne : y ≠ z) : Apart y z := by
  have block : ∀ {k b}, Block cls k b → 16 ≤ blockSize k ∧
      (b + blockSize k ≤ T.descs ∨ T.descs + descCnt * sizeofDesc ≤ b) :=
    fun {k _} hb => ⟨blockSize_ge k, (lay.block_placed hb).2.2.2⟩
  simp only [Node, listAt, tailOf, freeListOf, descAt, sizeofDesc, descCnt, Apart] at *
  rcases hy with rfl | rfl | hy <;> rcases hz with rfl | rfl | hz
  any_goals omega
  · have := block hz; omega
  · have := block hz; omega
  · have := block hy; omega
  · have := block hy; omega
  · have sizes := blockSize_ge i
    have sizes' := blockSize_ge j
    have := lay.block_apart hy hz hne
    omega

theorem Layout.node_header {i y a : Nat} (hi : i < descCnt) (hy : Node T cls i y)
    (ha : 0 < runs a) : y + 8 ≤ a ∨ a + sizeofArena ≤ y := by
  have descs := (lay.placed a ha).descs
  have size : 1 * pgSize ≤ runs a * pgSize := Nat.mul_le_mul_right _ ha
  simp only [Node, listAt, tailOf, freeListOf, descAt, sizeofDesc, descCnt, NoOverlap, pgSize,
    sizeofArena] at *
  rcases hy with rfl | rfl | hy
  · omega
  · omega
  · have := lay.block_header hy ha
    have := blockSize_ge i
    simp only [sizeofArena] at *
    omega

theorem Layout.node_desc {i j y : Nat} (hj : j < descCnt) (hy : Node T cls i y) : y + 8 ≤ descAt T j ∨ descAt T j + 8 ≤ y := by
  simp only [Node, listAt, tailOf, freeListOf, descAt, sizeofDesc, descCnt] at *
  rcases hy with rfl | rfl | hy
  · omega
  · omega
  · have := (lay.block_placed hy).2.2.2
    have := blockSize_ge i
    simp only [sizeofDesc, descCnt] at *
    omega

/-- A node belongs to one class only. -/
theorem Layout.node_class {i j y : Nat} (hi : Node T cls i y) (hj : Node T cls j y)
    (hi' : i < descCnt) (hj' : j < descCnt) : i = j := by
  have block : ∀ {k}, Block cls k y → 16 ≤ blockSize k ∧
      (y + blockSize k ≤ T.descs ∨ T.descs + descCnt * sizeofDesc ≤ y) :=
    fun {k} hb => ⟨blockSize_ge k, (lay.block_placed hb).2.2.2⟩
  simp only [Node, listAt, tailOf, freeListOf, descAt, sizeofDesc, descCnt] at *
  rcases hi with hi | hi | hi <;> rcases hj with hj | hj | hj
  any_goals omega
  · have := block hj; omega
  · have := block hj; omega
  · have := block hi; omega
  · have := block hi; omega
  · exact lay.block_class hi hj

end Geometry

/-- What memory says of the arenas: the descriptors, the headers with the counters
cnt, and for each class the list of the blocks that are free. -/
structure Rep (T : HeapTask) (runs : Nat → Nat) (cls : Nat → Option Nat) (cnt : Nat → Nat)
    (free : Nat → Prop) (m : Mem) : Prop where
  desc : ∀ i < descCnt, m (descAt T i) = blockSize i ∧
    m (blocksPerArenaOf (descAt T i)) = blocksPerArena i
  small : ∀ a i, cls a = some i → m a = descAt T i ∧ m (cntOf a) = cnt a ∧ m (largeOf a) = 0
  large : ∀ a, 0 < runs a → cls a = none → m a = 0 ∧ m (cntOf a) = runs a ∧ m (largeOf a) = 1
  lists : ∀ i < descCnt, ∃ xs, IsList m (listAt T i) xs ∧ ∀ b, b ∈ xs ↔ Block cls i b ∧ free b

section Memory
variable {T : HeapTask} {runs : Nat → Nat} {cls : Nat → Option Nat} {cnt : Nat → Nat}
  {free : Nat → Prop} {m : Mem}

theorem node_of_mem {i y : Nat} {xs : List Nat} (hxs : ∀ b, b ∈ xs ↔ Block cls i b ∧ free b)
    (hy : y ∈ nodes (listAt T i) xs) : Node T cls i y := by
  simp only [nodes, List.cons_append, List.mem_cons, List.mem_append, List.not_mem_nil,
    or_false] at hy
  rcases hy with rfl | hy | rfl
  · exact Or.inl rfl
  · exact Or.inr (Or.inr ((hxs y).1 hy).1)
  · exact Or.inr (Or.inl rfl)

/-- The free lists are short: their elements are distinct addresses. -/
theorem Layout.short {i : Nat} {xs : List Nat} (lay : Layout T runs cls)
    (hl : IsList m (listAt T i) xs) (hxs : ∀ b, b ∈ xs ↔ Block cls i b ∧ free b) :
    xs.length < 2 ^ 32 := by
  have nodup : xs.Nodup := by
    have := nodup_of_apart hl.apart
    unfold nodes at this
    grind
  have sub : xs.toFinset ⊆ Finset.Ico 1 (2 ^ 32) := by
    intro b hb
    have hb' := lay.block_placed ((hxs b).1 (List.mem_toFinset.1 hb)).1
    have := blockSize_ge i
    rw [Finset.mem_Ico]
    omega
  have card := Finset.card_le_card sub
  rw [List.toFinset_card_of_nodup nodup, Nat.card_Ico] at card
  omega

/-- The words of a header lie outside the nodes of every class. -/
theorem Layout.header_outside {i a k : Nat} {l : List Nat} (lay : Layout T runs cls)
    (hi : i < descCnt) (hl : ∀ y ∈ l, Node T cls i y) (ha : 0 < runs a) (hk : k < sizeofArena) :
    Outside l (a + k) := by
  intro y hy
  have := lay.node_header hi (hl y hy) ha
  omega

theorem Layout.desc_outside {i j k : Nat} {l : List Nat} (lay : Layout T runs cls)
    (hj : j < descCnt) (hl : ∀ y ∈ l, Node T cls i y) (hk : k < 8) :
    Outside l (descAt T j + k) := by
  intro y hy
  have := lay.node_desc hj (hl y hy)
  omega

/-- A change to nodes of one class leaves descriptors, headers and the lists of the
other classes as they were. -/
theorem Rep.frame {m' : Mem} {i : Nat} {l : List Nat} (h : Rep T runs cls cnt free m)
    (lay : Layout T runs cls) (hi : i < descCnt) (hl : ∀ y ∈ l, Node T cls i y)
    (same : ∀ x, Outside l x → m' x = m x) {free' : Nat → Prop}
    (others : ∀ j b, j ≠ i → Block cls j b → (free' b ↔ free b))
    (list : ∃ xs, IsList m' (listAt T i) xs ∧ ∀ b, b ∈ xs ↔ Block cls i b ∧ free' b) :
    Rep T runs cls cnt free' m' where
  desc j hj := by
    have first := same _ (lay.desc_outside hj hl (k := 0) (by decide))
    have second := same _ (lay.desc_outside hj hl (k := 4) (by decide))
    exact ⟨first.trans (h.desc j hj).1, second.trans (h.desc j hj).2⟩
  small a j ha := by
    have at_header : ∀ k < sizeofArena, m' (a + k) = m (a + k) := fun k hk =>
      same _ (lay.header_outside hi hl (lay.page ha).2.1 hk)
    obtain ⟨h0, h4, h8⟩ := h.small a j ha
    exact ⟨(at_header 0 (by decide)).trans h0, (at_header 4 (by decide)).trans h4,
      (at_header 8 (by decide)).trans h8⟩
  large a ha hc := by
    have at_header : ∀ k < sizeofArena, m' (a + k) = m (a + k) := fun k hk =>
      same _ (lay.header_outside hi hl ha hk)
    obtain ⟨h0, h4, h8⟩ := h.large a ha hc
    exact ⟨(at_header 0 (by decide)).trans h0, (at_header 4 (by decide)).trans h4,
      (at_header 8 (by decide)).trans h8⟩
  lists j hj := by
    by_cases hji : j = i
    · subst hji
      exact list
    · obtain ⟨xs, hxs, hmem⟩ := h.lists j hj
      refine ⟨xs, hxs.congr ?_, fun b => ?_⟩
      · intro y hy x hyx hxy
        apply same
        intro z hz
        have hne : y ≠ z := by
          rintro rfl
          exact hji (lay.node_class (node_of_mem hmem hy) (hl y hz) hj hi)
        have := lay.node_apart hj hi (node_of_mem hmem hy) (hl z hz) hne
        unfold Apart at this
        omega
      · rw [hmem]
        constructor
        · rintro ⟨hb, hf⟩
          exact ⟨hb, (others j b hji hb).2 hf⟩
        · rintro ⟨hb, hf⟩
          exact ⟨hb, (others j b hji hb).1 hf⟩

theorem Rep.append {i b : Nat} (h : Rep T runs cls cnt free m) (lay : Layout T runs cls)
    (hi : i < descCnt) (hb : Block cls i b) (used : ¬ free b) :
    Succeeds (listAppend (listAt T i) b)
      (fun _ m' => Rep T runs cls cnt (fun c => free c ∨ c = b) m') m := by
  obtain ⟨xs, hxs, hmem⟩ := h.lists i hi
  have node : ∀ y ∈ nodes (listAt T i) xs, Node T cls i y := fun y => node_of_mem hmem
  have hnode : Node T cls i b := Or.inr (Or.inr hb)
  have fresh : ∀ y ∈ nodes (listAt T i) xs, Apart y b := by
    intro y hy
    apply lay.node_apart hi hi (node y hy) hnode
    rintro rfl
    simp only [nodes, List.cons_append, List.mem_cons, List.mem_append, List.not_mem_nil,
      or_false] at hy
    have size := blockSize_ge i
    have place := (lay.block_placed hb).2.2.2
    simp only [listAt, tailOf, freeListOf, descAt, sizeofDesc, descCnt] at *
    rcases hy with hy | hy | hy
    · omega
    · exact used ((hmem y).1 hy).2
    · omega
  refine wp_post (listAppend_spec hxs fresh) ?_
  rintro - m' ⟨hlist, same⟩
  refine h.frame lay hi ?_ same ?_ ⟨_, hlist, ?_⟩
  · intro y hy
    rcases List.mem_cons.1 hy with rfl | hy
    · exact hnode
    · exact node y hy
  · intro j c hji hc
    have hcb : c ≠ b := by
      rintro rfl
      exact hji (lay.block_class hc hb)
    simp [hcb]
  · intro c
    rw [List.mem_append, List.mem_singleton, hmem]
    constructor
    · rintro (⟨hc, hf⟩ | rfl)
      · exact ⟨hc, Or.inl hf⟩
      · exact ⟨hb, Or.inr rfl⟩
    · rintro ⟨hc, hf | rfl⟩
      · exact Or.inl ⟨hc, hf⟩
      · exact Or.inr rfl

/-- Unlinking the element b from the list of its class. -/
theorem Rep.unlink {m' : Mem} {i b : Nat} {xs ys : List Nat} (h : Rep T runs cls cnt free m)
    (lay : Layout T runs cls) (hi : i < descCnt)
    (hmem : ∀ c, c ∈ xs ++ b :: ys ↔ Block cls i c ∧ free c)
    (before : IsList m (listAt T i) (xs ++ b :: ys)) (after : IsList m' (listAt T i) (xs ++ ys))
    (same : ∀ x, Outside (nodes (listAt T i) (xs ++ ys)) x → m' x = m x) :
    Rep T runs cls cnt (fun c => free c ∧ c ≠ b) m' := by
  have hb : Block cls i b := ((hmem b).1 (by simp)).1
  have nodup : (xs ++ b :: ys).Nodup := by
    have := nodup_of_apart before.apart
    unfold nodes at this
    grind
  have members : ∀ c, c ∈ xs ++ ys ↔ Block cls i c ∧ (free c ∧ c ≠ b) := by
    intro c
    have hc := hmem c
    grind
  refine h.frame lay hi ?_ same ?_ ⟨_, after, members⟩
  · intro y hy
    exact node_of_mem members hy
  · intro j c hji hc
    have hcb : c ≠ b := by
      rintro rfl
      exact hji (lay.block_class hc hb)
    simp [hcb]

theorem Rep.remove {i b : Nat} (h : Rep T runs cls cnt free m) (lay : Layout T runs cls)
    (hi : i < descCnt) (hb : Block cls i b) (hf : free b) :
    Succeeds (listRemove b) (fun _ m' => Rep T runs cls cnt (fun c => free c ∧ c ≠ b) m') m := by
  obtain ⟨xs, hxs, hmem⟩ := h.lists i hi
  obtain ⟨l, r, rfl⟩ := List.append_of_mem ((hmem b).2 ⟨hb, hf⟩)
  refine wp_post (listRemove_spec hxs) ?_
  rintro - m' ⟨after, same⟩
  exact h.unlink lay hi hmem hxs after same

theorem Rep.pop {i : Nat} (h : Rep T runs cls cnt free m) (lay : Layout T runs cls)
    (hi : i < descCnt) (some_free : ∃ b, Block cls i b ∧ free b) :
    Succeeds (listPop (listAt T i)) (fun b m' => Block cls i b ∧ free b ∧
      Rep T runs cls cnt (fun c => free c ∧ c ≠ b) m') m := by
  obtain ⟨xs, hxs, hmem⟩ := h.lists i hi
  obtain ⟨b₀, hb₀⟩ := some_free
  cases xs with
  | nil => cases (hmem b₀).2 hb₀
  | cons b xs =>
    refine wp_post (listPop_spec hxs) ?_
    rintro _ m' ⟨rfl, after, same⟩
    have hb := (hmem _).1 List.mem_cons_self
    have front : IsList m (listAt T i) ([] ++ _ :: xs) := hxs
    exact ⟨hb.1, hb.2, h.unlink lay hi hmem front after same⟩

theorem Rep.find {i b : Nat} (h : Rep T runs cls cnt free m) (lay : Layout T runs cls)
    (hi : i < descCnt) (hb : Block cls i b) :
    Succeeds (elemFind (listAt T i) b) (fun found m' => (found = true ↔ free b) ∧ m' = m) m := by
  obtain ⟨xs, hxs, hmem⟩ := h.lists i hi
  refine wp_post (elemFind_spec hxs (lay.short hxs hmem)) ?_
  rintro found m' ⟨hf, rfl⟩
  refine ⟨hf.trans ((hmem b).trans ?_), rfl⟩
  simp [hb]

theorem Rep.empty {i : Nat} (h : Rep T runs cls cnt free m) (hi : i < descCnt) :
    Succeeds (listEmpty (listAt T i))
      (fun e m' => (e = true ↔ ∀ b, Block cls i b → ¬ free b) ∧ m' = m) m := by
  obtain ⟨xs, hxs, hmem⟩ := h.lists i hi
  refine wp_post (listEmpty_spec hxs) ?_
  rintro e m' ⟨he, rfl⟩
  refine ⟨he.trans ?_, rfl⟩
  rw [List.eq_nil_iff_forall_not_mem]
  simp only [hmem, not_and]

/-- The addresses through which memory is read for what it says of the arenas. -/
def Read (T : HeapTask) (runs : Nat → Nat) (cls : Nat → Option Nat) (free : Nat → Prop)
    (x : Nat) : Prop :=
  (T.descs ≤ x ∧ x < T.descs + descCnt * sizeofDesc) ∨
    (∃ a, 0 < runs a ∧ a ≤ x ∧ x < a + sizeofArena) ∨
    ∃ i b, Block cls i b ∧ free b ∧ b ≤ x ∧ x < b + 8

theorem read_of_node {i x y : Nat} {xs : List Nat} (hi : i < descCnt)
    (hxs : ∀ b, b ∈ xs ↔ Block cls i b ∧ free b) (hy : y ∈ nodes (listAt T i) xs) (hyx : y ≤ x)
    (hxy : x < y + 8) : Read T runs cls free x := by
  simp only [nodes, List.cons_append, List.mem_cons, List.mem_append, List.not_mem_nil,
    or_false] at hy
  rcases hy with rfl | hy | rfl
  · left
    simp only [listAt, freeListOf, descAt, sizeofDesc, descCnt] at *
    omega
  · exact Or.inr (Or.inr ⟨i, y, ((hxs y).1 hy).1, ((hxs y).1 hy).2, hyx, hxy⟩)
  · left
    simp only [listAt, tailOf, freeListOf, descAt, sizeofDesc, descCnt] at *
    omega

theorem Rep.congr {m' : Mem} (h : Rep T runs cls cnt free m) (lay : Layout T runs cls)
    (same : ∀ x, Read T runs cls free x → m' x = m x) : Rep T runs cls cnt free m' where
  desc j hj := by
    have at_desc : ∀ k < 8, m' (descAt T j + k) = m (descAt T j + k) := by
      intro k hk
      apply same
      left
      simp only [descAt, sizeofDesc, descCnt] at *
      omega
    exact ⟨(at_desc 0 (by decide)).trans (h.desc j hj).1,
      (at_desc 4 (by decide)).trans (h.desc j hj).2⟩
  small a j ha := by
    have at_header : ∀ k < sizeofArena, m' (a + k) = m (a + k) := fun k hk =>
      same _ (Or.inr (Or.inl ⟨a, (lay.page ha).2.1, by omega, by omega⟩))
    obtain ⟨h0, h4, h8⟩ := h.small a j ha
    exact ⟨(at_header 0 (by decide)).trans h0, (at_header 4 (by decide)).trans h4,
      (at_header 8 (by decide)).trans h8⟩
  large a ha hc := by
    have at_header : ∀ k < sizeofArena, m' (a + k) = m (a + k) := fun k hk =>
      same _ (Or.inr (Or.inl ⟨a, ha, by omega, by omega⟩))
    obtain ⟨h0, h4, h8⟩ := h.large a ha hc
    exact ⟨(at_header 0 (by decide)).trans h0, (at_header 4 (by decide)).trans h4,
      (at_header 8 (by decide)).trans h8⟩
  lists j hj := by
    obtain ⟨xs, hxs, hmem⟩ := h.lists j hj
    exact ⟨xs, hxs.congr fun y hy x hyx hxy => same x (read_of_node hj hmem hy hyx hxy), hmem⟩

/-- Only which blocks are free, and the counters, as far as they are looked at. -/
theorem Rep.weaken {cnt' : Nat → Nat} {free' : Nat → Prop} (h : Rep T runs cls cnt free m)
    (hcnt : ∀ a i, cls a = some i → cnt' a = cnt a)
    (hfree : ∀ i b, Block cls i b → (free' b ↔ free b)) : Rep T runs cls cnt' free' m where
  desc := h.desc
  small a i ha := by rw [hcnt a i ha]; exact h.small a i ha
  large := h.large
  lists i hi := by
    obtain ⟨xs, hxs, hmem⟩ := h.lists i hi
    refine ⟨xs, hxs, fun b => (hmem b).trans ?_⟩
    constructor
    · rintro ⟨hb, hf⟩
      exact ⟨hb, (hfree i b hb).2 hf⟩
    · rintro ⟨hb, hf⟩
      exact ⟨hb, (hfree i b hb).1 hf⟩

theorem Layout.headers_apart {a b x : Nat} (lay : Layout T runs cls) (ha : 0 < runs a)
    (hb : 0 < runs b) (hxa : a ≤ x) (hxa' : x < a + sizeofArena) (hxb : b ≤ x)
    (hxb' : x < b + sizeofArena) : a = b := by
  by_contra hne
  have := lay.disjoint a b hne ha hb
  have size : 1 * pgSize ≤ runs a * pgSize := Nat.mul_le_mul_right _ ha
  have size' : 1 * pgSize ≤ runs b * pgSize := Nat.mul_le_mul_right _ hb
  simp only [NoOverlap, pgSize, sizeofArena] at *
  omega

theorem Layout.header_desc {a x : Nat} (lay : Layout T runs cls) (ha : 0 < runs a) (hxa : a ≤ x)
    (hxa' : x < a + sizeofArena) : ¬ (T.descs ≤ x ∧ x < T.descs + descCnt * sizeofDesc) := by
  have descs := (lay.placed a ha).descs
  have size : 1 * pgSize ≤ runs a * pgSize := Nat.mul_le_mul_right _ ha
  simp only [NoOverlap, pgSize, sizeofArena] at *
  omega

/-- Writing the counter of a small arena. -/
theorem Rep.setCnt {a i v : Nat} (h : Rep T runs cls cnt free m) (lay : Layout T runs cls)
    (ha : cls a = some i) :
    Rep T runs cls (Function.update cnt a v) free (Function.update m (cntOf a) v) := by
  have pos := (lay.page ha).2.1
  have other : ∀ x, x ≠ cntOf a → Function.update m (cntOf a) v x = m x :=
    fun x hx => Function.update_of_ne hx _ _
  have header : ∀ b k, 0 < runs b → k < sizeofArena → (b ≠ a ∨ k ≠ 4) →
      Function.update m (cntOf a) v (b + k) = m (b + k) := by
    intro b k hb hk hne
    apply other
    intro he
    have hx : a + 4 = b + k := he.symm
    have hab := lay.headers_apart pos hb (x := b + k) (by omega)
      (by simp only [sizeofArena]; omega) (by omega) (by omega)
    omega
  refine ⟨?_, ?_, ?_, ?_⟩
  · intro j hj
    have at_desc : ∀ k < 8, Function.update m (cntOf a) v (descAt T j + k) = m (descAt T j + k) := by
      intro k hk
      apply other
      intro he
      apply lay.header_desc pos (x := cntOf a) (by unfold cntOf; omega)
        (by simp only [cntOf, sizeofArena]; omega)
      rw [← he]
      simp only [descAt, sizeofDesc, descCnt] at *
      omega
    exact ⟨(at_desc 0 (by decide)).trans (h.desc j hj).1,
      (at_desc 4 (by decide)).trans (h.desc j hj).2⟩
  · intro b j hb
    obtain ⟨h0, h4, h8⟩ := h.small b j hb
    have hpos := (lay.page hb).2.1
    refine ⟨(header b 0 hpos (by decide) (Or.inr (by decide))).trans h0, ?_,
      (header b 8 hpos (by decide) (Or.inr (by decide))).trans h8⟩
    by_cases hba : b = a
    · subst hba
      simp
    · rw [Function.update_of_ne hba]
      exact (header b 4 hpos (by decide) (Or.inl hba)).trans h4
  · intro b hb hc
    have hba : b ≠ a := by
      rintro rfl
      rw [ha] at hc
      cases hc
    obtain ⟨h0, h4, h8⟩ := h.large b hb hc
    exact ⟨(header b 0 hb (by decide) (Or.inl hba)).trans h0,
      (header b 4 hb (by decide) (Or.inl hba)).trans h4,
      (header b 8 hb (by decide) (Or.inl hba)).trans h8⟩
  · intro j hj
    obtain ⟨xs, hxs, hmem⟩ := h.lists j hj
    refine ⟨xs, hxs.congr fun y hy x hyx hxy => other x ?_, hmem⟩
    rintro rfl
    have := lay.node_header hj (node_of_mem hmem hy) pos
    simp only [cntOf, sizeofArena] at *
    omega

/-! Arenas come and go. -/

theorem Fresh.not_run {h : Heap} {a n : Nat} (fresh : Fresh T h a n) (hn : 0 < n) :
    h.runs a = 0 := by
  by_contra hne
  have := fresh.runs a (Nat.pos_of_ne_zero hne)
  have size : 1 * pgSize ≤ n * pgSize := Nat.mul_le_mul_right _ hn
  have size' : 1 * pgSize ≤ h.runs a * pgSize := Nat.mul_le_mul_right _ (Nat.pos_of_ne_zero hne)
  simp only [NoOverlap, pgSize] at *
  omega

/-- A new run, as a small arena of the class c or as a large one. -/
theorem Layout.grow {h : Heap} {a n : Nat} {c : Option Nat} (lay : Layout T h.runs cls)
    (fresh : Fresh T h a n) (class_ok : ∀ i, c = some i → n = 1 ∧ i < descCnt) :
    Layout T (Function.update h.runs a n) (Function.update cls a c) := by
  refine ⟨?_, ?_, ?_⟩
  · intro b hb
    by_cases hba : b = a
    · subst hba
      rw [Function.update_self]
      exact ⟨fresh.aligned, fresh.pos, fresh.below, fresh.kernel, fresh.descs⟩
    · rw [Function.update_of_ne hba] at hb ⊢
      exact lay.placed b hb
  · intro b d hbd hb hd
    by_cases hba : b = a
    · subst hba
      rw [Function.update_of_ne (Ne.symm hbd)] at hd ⊢
      rw [Function.update_self]
      exact fresh.runs d hd
    · rw [Function.update_of_ne hba] at hb ⊢
      by_cases hda : d = a
      · subst hda
        rw [Function.update_self]
        exact Or.symm (fresh.runs b hb)
      · rw [Function.update_of_ne hda] at hd ⊢
        exact lay.disjoint b d hbd hb hd
  · intro b i hb
    by_cases hba : b = a
    · subst hba
      rw [Function.update_self] at hb ⊢
      exact class_ok i hb
    · rw [Function.update_of_ne hba] at hb ⊢
      exact lay.small b i hb

theorem Layout.shrink {a : Nat} (lay : Layout T runs cls) :
    Layout T (Function.update runs a 0) (Function.update cls a none) := by
  have kept : ∀ b, 0 < Function.update runs a 0 b → b ≠ a ∧ 0 < runs b := by
    intro b hb
    by_cases hba : b = a
    · subst hba; simp at hb
    · exact ⟨hba, by rwa [Function.update_of_ne hba] at hb⟩
  refine ⟨?_, ?_, ?_⟩
  · intro b hb
    obtain ⟨hba, hb'⟩ := kept b hb
    rw [Function.update_of_ne hba]
    exact lay.placed b hb'
  · intro b d hbd hb hd
    obtain ⟨hba, hb'⟩ := kept b hb
    obtain ⟨hda, hd'⟩ := kept d hd
    rw [Function.update_of_ne hba, Function.update_of_ne hda]
    exact lay.disjoint b d hbd hb' hd'
  · intro b i hb
    by_cases hba : b = a
    · subst hba; simp at hb
    · rw [Function.update_of_ne hba] at hb ⊢
      exact lay.small b i hb

theorem block_update {a i b : Nat} {c : Option Nat} :
    Block (Function.update cls a c) i b ↔
      (c = some i ∧ ∃ idx < blocksPerArena i, b = blockAt a i idx) ∨
      ∃ a' idx, a' ≠ a ∧ cls a' = some i ∧ idx < blocksPerArena i ∧ b = blockAt a' i idx := by
  constructor
  · rintro ⟨a', idx, ha', hidx, hb⟩
    by_cases he : a' = a
    · subst he
      rw [Function.update_self] at ha'
      exact Or.inl ⟨ha', idx, hidx, hb⟩
    · rw [Function.update_of_ne he] at ha'
      exact Or.inr ⟨a', idx, he, ha', hidx, hb⟩
  · rintro (⟨hc, idx, hidx, hb⟩ | ⟨a', idx, he, ha', hidx, hb⟩)
    · exact ⟨a, idx, by rw [Function.update_self]; exact hc, hidx, hb⟩
    · exact ⟨a', idx, by rw [Function.update_of_ne he]; exact ha', hidx, hb⟩

/-- The blocks of other arenas lie outside the pages of a run. -/
theorem Layout.block_outside {a a' i idx : Nat} (lay : Layout T runs cls) (ha : 0 < runs a)
    (ha' : cls a' = some i) (hne : a' ≠ a) (hidx : idx < blocksPerArena i) :
    blockAt a' i idx + blockSize i ≤ a ∨ a + runs a * pgSize ≤ blockAt a' i idx := by
  obtain ⟨-, pos, one, -⟩ := lay.page ha'
  have inside := block_in_page hidx a'
  have := lay.disjoint a' a hne pos ha
  simp only [NoOverlap, one, pgSize, sizeofArena] at *
  omega

/-- Memory after the pages of a new run were filled in: nothing else has changed, the
header is there, and none of its blocks is free yet. -/
theorem Rep.grow {h : Heap} {a n v : Nat} {c : Option Nat} {m' : Mem}
    (rep : Rep T h.runs cls cnt free m) (lay : Layout T h.runs cls) (hn : 0 < n)
    (fresh : Fresh T h a n) (class_ok : ∀ i, c = some i → n = 1 ∧ i < descCnt)
    (outside : ∀ x, (x < a ∨ a + n * pgSize ≤ x) → m' x = m x)
    (header : match c with
      | some i => m' a = descAt T i ∧ m' (cntOf a) = v ∧ m' (largeOf a) = 0
      | none => m' a = 0 ∧ m' (cntOf a) = n ∧ m' (largeOf a) = 1) :
    Rep T (Function.update h.runs a n) (Function.update cls a c) (Function.update cnt a v)
      (fun b => free b ∧ ∀ i, c = some i → ∀ idx < blocksPerArena i, b ≠ blockAt a i idx) m' := by
  have lay' := lay.grow fresh class_ok
  have run : Function.update h.runs a n a = n := Function.update_self _ _ _
  have old : ∀ b, 0 < h.runs b → b ≠ a := by
    rintro b hb rfl
    rw [fresh.not_run hn] at hb
    cases hb
  have header_out : ∀ b k, 0 < h.runs b → k < sizeofArena → m' (b + k) = m (b + k) := by
    intro b k hb hk
    apply outside
    have := fresh.runs b hb
    have size : 1 * pgSize ≤ h.runs b * pgSize := Nat.mul_le_mul_right _ hb
    simp only [NoOverlap, pgSize, sizeofArena] at *
    omega
  have cls_old : ∀ b i, cls b = some i → 0 < h.runs b := fun b i hb => (lay.page hb).2.1
  refine ⟨?_, ?_, ?_, ?_⟩
  · intro j hj
    have at_desc : ∀ k < 8, m' (descAt T j + k) = m (descAt T j + k) := by
      intro k hk
      apply outside
      have := fresh.descs
      simp only [NoOverlap, descAt, sizeofDesc, descCnt] at *
      omega
    exact ⟨(at_desc 0 (by decide)).trans (rep.desc j hj).1,
      (at_desc 4 (by decide)).trans (rep.desc j hj).2⟩
  · intro b i hb
    by_cases hba : b = a
    · subst hba
      rw [Function.update_self] at hb ⊢
      subst hb
      exact header
    · rw [Function.update_of_ne hba] at hb ⊢
      obtain ⟨h0, h4, h8⟩ := rep.small b i hb
      have pos := cls_old b i hb
      exact ⟨(header_out b 0 pos (by decide)).trans h0, (header_out b 4 pos (by decide)).trans h4,
        (header_out b 8 pos (by decide)).trans h8⟩
  · intro b hb hc
    by_cases hba : b = a
    · subst hba
      rw [Function.update_self] at hb hc ⊢
      subst hc
      exact header
    · rw [Function.update_of_ne hba] at hb hc ⊢
      obtain ⟨h0, h4, h8⟩ := rep.large b hb hc
      exact ⟨(header_out b 0 hb (by decide)).trans h0, (header_out b 4 hb (by decide)).trans h4,
        (header_out b 8 hb (by decide)).trans h8⟩
  · intro j hj
    obtain ⟨xs, hxs, hmem⟩ := rep.lists j hj
    refine ⟨xs, hxs.congr fun y hy x hyx hxy => outside x ?_, fun b => (hmem b).trans ?_⟩
    · rcases read_of_node hj hmem hy hyx hxy with hd | ⟨b, hb, hbx, hxb⟩ | ⟨i, b, hb, -, hbx, hxb⟩
      · have := fresh.descs
        simp only [NoOverlap] at this
        omega
      · have := fresh.runs b hb
        have size : 1 * pgSize ≤ h.runs b * pgSize := Nat.mul_le_mul_right _ hb
        simp only [NoOverlap, pgSize, sizeofArena] at *
        omega
      · obtain ⟨a', idx, ha', hidx, rfl⟩ := hb
        have ha'' : Function.update cls a c a' = some i := by
          rw [Function.update_of_ne (old a' (cls_old a' i ha'))]
          exact ha'
        have := lay'.block_outside (a := a) (by rw [run]; exact hn) ha''
          (old a' (cls_old a' i ha')) hidx
        have size := blockSize_ge i
        rw [run] at this
        omega
    · rw [block_update]
      constructor
      · rintro ⟨⟨a', idx, ha', hidx, rfl⟩, hf⟩
        have hne := old a' (cls_old a' j ha')
        refine ⟨Or.inr ⟨a', idx, hne, ha', hidx, rfl⟩, hf, ?_⟩
        rintro i rfl idx' hidx' he
        have ha'' : Function.update cls a (some i) a' = some j := by
          rw [Function.update_of_ne hne]
          exact ha'
        have := lay'.block_outside (a := a) (by rw [run]; exact hn) ha'' hne hidx
        have inside := block_in_page hidx' a
        have one := (class_ok i rfl).1
        have size := blockSize_ge i
        have size' := blockSize_ge j
        rw [run, one] at this
        simp only [pgSize, sizeofArena] at *
        omega
      · rintro ⟨⟨hc, idx, hidx, rfl⟩ | ⟨a', idx, -, ha', hidx, rfl⟩, hf, hnew⟩
        · exact (hnew j hc idx hidx rfl).elim
        · exact ⟨⟨a', idx, ha', hidx, rfl⟩, hf⟩

/-- An arena with no free block left in a list is taken away. -/
theorem Rep.shrink {a : Nat} (h : Rep T runs cls cnt free m)
    (gone : ∀ i, cls a = some i → ∀ idx < blocksPerArena i, ¬ free (blockAt a i idx)) :
    Rep T (Function.update runs a 0) (Function.update cls a none) cnt free m := by
  refine ⟨h.desc, ?_, ?_, ?_⟩
  · intro b i hb
    by_cases hba : b = a
    · subst hba; simp at hb
    · rw [Function.update_of_ne hba] at hb
      exact h.small b i hb
  · intro b hb hc
    by_cases hba : b = a
    · subst hba; simp at hb
    · rw [Function.update_of_ne hba] at hb hc ⊢
      exact h.large b hb hc
  · intro j hj
    obtain ⟨xs, hxs, hmem⟩ := h.lists j hj
    refine ⟨xs, hxs, fun b => (hmem b).trans ?_⟩
    rw [block_update]
    constructor
    · rintro ⟨⟨a', idx, ha', hidx, rfl⟩, hf⟩
      have hne : a' ≠ a := by
        rintro rfl
        exact gone j ha' idx hidx hf
      exact ⟨Or.inr ⟨a', idx, hne, ha', hidx, rfl⟩, hf⟩
    · rintro ⟨⟨hc, -⟩ | ⟨a', idx, -, ha', hidx, rfl⟩, hf⟩
      · cases hc
      · exact ⟨⟨a', idx, ha', hidx, rfl⟩, hf⟩

end Memory

end Zhenxiang.Kernel
