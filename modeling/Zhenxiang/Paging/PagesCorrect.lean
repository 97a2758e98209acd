import Zhenxiang.Paging.PagesSafety

/-! Freeing a range takes back what allocating it gave, and the allocator keeps its
order over any run of successful calls. -/
namespace Zhenxiang.Paging
open Lib Kernel

variable {M : Machine} {s t : VM}

/-! The bitmaps of virtual pages. -/

/-- Page number of the first bit of a half. -/
def vaddrBase : PoolFlags → Nat
  | .kernel => kHeapStart / pgSize
  | .user => userVaddrStart / pgSize

theorem vaddrBit_reserve {pf : PoolFlags} {p i cnt : Nat} {b : Bool} {h : Option Nat} {m : Nat}
    (hm : InVaddr M h m) : (s.reserve pf p i cnt b).vaddrBit h m =
      if h = half p pf ∧ vaddrBase pf + i ≤ m ∧ m < vaddrBase pf + i + cnt then b
      else s.vaddrBit h m := by
  have split : ∀ base : Nat, base ≤ m →
      ((i ≤ m - base ∧ m - base < i + cnt) ↔ (base + i ≤ m ∧ m < base + i + cnt)) := by omega
  cases h with
  | none =>
    cases pf with
    | kernel => simp [VM.reserve, VM.vaddrBit, setBits, half, vaddrBase, split _ hm.1]
    | user => simp [VM.reserve, VM.vaddrBit, half]
  | some q =>
    cases pf with
    | kernel => simp [VM.reserve, VM.vaddrBit, half]
    | user =>
      by_cases hq : q = p
      · subst hq
        simp [VM.reserve, VM.vaddrBit, setBits, half, vaddrBase, split _ hm.1]
      · simp [VM.reserve, VM.vaddrBit, half, hq]

theorem InVaddr.ge {pf : PoolFlags} {p n : Nat} (h : InVaddr M (half p pf) n) :
    vaddrBase pf ≤ n := by
  cases pf <;> exact h.1

/-- What the bitmap of a half covers fits into 32 bits. -/
theorem InVaddr.lt {pf : PoolFlags} {p n : Nat} (h : InVaddr M (half p pf) n) : n < 0xffc00 := by
  have small := M.kLen_small
  cases pf <;>
    simp only [half, InVaddr, kHeapStart, userVaddrStart, userVaddrLen, pgSize] at h <;>
    (try split at h) <;> omega

theorem bitIdx_page {pf : PoolFlags} {p n o : Nat} (h : InVaddr M (half p pf) n)
    (ho : o < pgSize) : bitIdx (n * pgSize + o) (vaddrBase pf * pgSize) = n - vaddrBase pf := by
  have lo := h.ge
  have hi := h.lt
  simp only [bitIdx, pgSize] at *
  omega

/-- The same tables and frames. -/
def SamePhys (s t : VM) : Prop :=
  t.pde = s.pde ∧ t.pte = s.pte ∧ t.kernelPool = s.kernelPool ∧ t.userPool = s.userPool

theorem reserve_samePhys {pf : PoolFlags} {p i cnt : Nat} {b : Bool} :
    SamePhys s (s.reserve pf p i cnt b) := by
  cases pf <;> exact ⟨rfl, rfl, rfl, rfl⟩

theorem reserve_runs {pf : PoolFlags} {p i cnt : Nat} {b : Bool} :
    (s.reserve pf p i cnt b).runs = s.runs := by
  cases pf <;> rfl

theorem SamePhys.uses (h : SamePhys s t) {sl : Slot} {f : Nat} : Uses t sl f ↔ Uses s sl f :=
  uses_congr h.1 h.2.1

theorem SamePhys.poolBit (h : SamePhys s t) (pf : PoolFlags) : t.poolBit pf = s.poolBit pf := by
  cases pf
  · exact h.2.2.1
  · exact h.2.2.2

theorem PageCore.samePhys (core : PageCore M s) (same : SamePhys s t)
    (reserved : ∀ h n f, Uses s (.page h n) f → Reserved M s h n → Reserved M t h n) :
    PageCore M t where
  kernel_pde := by rw [same.1]; exact core.kernel_pde
  marked sl f hf := by
    rcases core.marked sl f (same.uses.1 hf) with ⟨i, hi, he, hb⟩ | hl
    · exact Or.inl ⟨i, hi, he, by rw [same.poolBit]; exact hb⟩
    · exact Or.inr hl
  uniq a b f ha hb := core.uniq a b f (same.uses.1 ha) (same.uses.1 hb)
  reserved h n f hf := by
    rcases core.reserved h n f (same.uses.1 hf) with hr | hl
    · exact Or.inl (reserved h n f (same.uses.1 hf) hr)
    · exact Or.inr hl

/-- vaddr_get reserves pages that were free and touches nothing else. -/
structure Got (M : Machine) (s t : VM) (h : Option Nat) (n cnt : Nat) : Prop where
  phys : SamePhys s t
  runs : t.runs = s.runs
  fresh : ∀ k < cnt, ¬ Reserved M s h (n + k)
  taken : ∀ k < cnt, Reserved M t h (n + k)
  kept : ∀ h' m, Reserved M s h' m → Reserved M t h' m

theorem got_reserve {pf : PoolFlags} {p i cnt len : Nat}
    (inside : ∀ m, InVaddr M (half p pf) m ↔ vaddrBase pf ≤ m ∧ m < vaddrBase pf + len)
    (fits : i + cnt ≤ len)
    (clear : ∀ k < cnt, s.vaddrBit (half p pf) (vaddrBase pf + (i + k)) = false) :
    Got M s (s.reserve pf p i cnt true) (half p pf) (vaddrBase pf + i) cnt where
  phys := reserve_samePhys
  runs := reserve_runs
  fresh k hk hr := by
    have := clear k hk
    rw [← Nat.add_assoc, hr.2] at this
    cases this
  taken k hk := by
    have hm : InVaddr M (half p pf) (vaddrBase pf + i + k) := (inside _).2 (by omega)
    refine ⟨hm, ?_⟩
    rw [vaddrBit_reserve hm]
    simp [hk]
  kept h' m hr := by
    refine ⟨hr.1, ?_⟩
    rw [vaddrBit_reserve hr.1, hr.2]
    simp

theorem vaddrGet_spec (pf : PoolFlags) (p cnt : Nat) :
    Returns (vaddrGet M pf p cnt) (fun r t => r = none ∨
      ∃ n, r = some (n * pgSize) ∧ Got M s t (half p pf) n cnt) s := by
  cases pf with
  | kernel =>
    simp only [vaddrGet, Returns, wp_bind, wp_get]
    cases hs : M.scan s.kernelVaddr M.kLen cnt with
    | none => exact (wp_pure _).2 (Or.inl rfl)
    | some i =>
      obtain ⟨fits, clear⟩ := M.scan_ok _ _ _ _ hs
      simp only [wp_bind, wp_modify, wp_pure]
      refine Or.inr ⟨kHeapStart / pgSize + i, ?_, got_reserve (fun m => Iff.rfl) fits ?_⟩
      · simp only [kHeapStart, pgSize, Option.some.injEq]
        omega
      · intro k hk
        have := clear k hk
        simpa [VM.vaddrBit, half, vaddrBase] using this
  | user =>
    simp only [vaddrGet, Returns, wp_bind, wp_get]
    cases hs : M.scan (s.userVaddr p) (userVaddrLen p) cnt with
    | none => exact (wp_pure _).2 (Or.inl rfl)
    | some i =>
      simp only [wp_bind, wp_modify, wp_assert, wp_pure]
      refine ⟨fun _ => ?_, fun _ => trivial⟩
      obtain ⟨fits, clear⟩ := M.scan_ok _ _ _ _ hs
      refine Or.inr ⟨userVaddrStart / pgSize + i, ?_, got_reserve (fun m => Iff.rfl) fits ?_⟩
      · simp only [userVaddrStart, pgSize, Option.some.injEq]
        omega
      · intro k hk
        have := clear k hk
        simpa [VM.vaddrBit, half, vaddrBase] using this

/-! Freeing. -/

/-- The slots in gone, and the pool bits of their frames, are given up. -/
structure Released (M : Machine) (s t : VM) (gone : Slot → Prop) : Prop where
  virt : SameVirt s t
  pde : t.pde = s.pde
  uses : ∀ sl f, Uses t sl f ↔ Uses s sl f ∧ ¬ gone sl
  bits : ∀ pf i, i < M.poolLen pf → (t.poolBit pf i = true ↔
    s.poolBit pf i = true ∧ ∀ sl, gone sl → ¬ Uses s sl (M.frame pf i))

theorem Released.refl : Released M s s fun _ => False where
  virt := ⟨rfl, rfl, rfl⟩
  pde := rfl
  uses sl f := by simp
  bits pf i _ := by simp

theorem Released.trans {u : VM} {gone gone' : Slot → Prop} (h : Released M s t gone)
    (k : Released M t u gone') : Released M s u fun sl => gone sl ∨ gone' sl where
  virt := h.virt.trans k.virt
  pde := k.pde.trans h.pde
  uses sl f := by
    rw [k.uses, h.uses]
    tauto
  bits pf i hi := by
    rw [k.bits pf i hi, h.bits pf i hi]
    constructor
    · rintro ⟨⟨hb, h1⟩, h2⟩
      refine ⟨hb, ?_⟩
      rintro sl (hg | hg) hu
      · exact h1 sl hg hu
      · by_cases hsl : gone sl
        · exact h1 sl hsl hu
        · exact h2 sl hg ((h.uses sl _).2 ⟨hu, hsl⟩)
    · rintro ⟨hb, h1⟩
      refine ⟨⟨hb, fun sl hg => h1 sl (Or.inl hg)⟩, ?_⟩
      intro sl hg hu
      exact h1 sl (Or.inr hg) ((h.uses sl _).1 hu).1

theorem Released.congr {gone gone' : Slot → Prop} (h : Released M s t gone)
    (same : ∀ sl, gone sl ↔ gone' sl) : Released M s t gone' := by
  obtain rfl : gone = gone' := funext fun sl => propext (same sl)
  exact h

theorem Released.core {gone : Slot → Prop} (h : Released M s t gone) (core : PageCore M s) :
    PageCore M t where
  kernel_pde := by rw [h.pde]; exact core.kernel_pde
  marked sl f hf := by
    obtain ⟨hu, hg⟩ := (h.uses sl f).1 hf
    rcases core.marked sl f hu with ⟨i, hi, rfl, hb⟩ | hl
    · refine Or.inl ⟨i, hi, rfl, (h.bits _ i hi).2 ⟨hb, ?_⟩⟩
      intro sl' hg' hu'
      have big : 0x100000 ≤ M.frame (poolOf sl) i := by
        have := frame_ge (M := M) (poolOf sl) i
        simp only [kStart] at this
        omega
      obtain rfl := core.uniq _ _ _ hu hu' big
      exact hg hg'
    · exact Or.inr hl
  uniq a b f ha hb := core.uniq a b f ((h.uses a f).1 ha).1 ((h.uses b f).1 hb).1
  reserved a n f hf := by
    rcases core.reserved a n f ((h.uses _ f).1 hf).1 with hr | hl
    · exact Or.inl (h.virt.reserved.2 hr)
    · exact Or.inr hl

theorem frame_mod (pf : PoolFlags) (i : Nat) : M.frame pf i % pgSize = 0 := by
  obtain ⟨k, hk⟩ := M.uStart_aligned
  cases pf
  · simp only [Machine.frame, Machine.poolStart, kStart, pgSize]
    omega
  · simp only [Machine.frame, Machine.poolStart, hk, pgSize]
    omega

theorem frame_user {pf : PoolFlags} {i : Nat} (hi : i < M.poolLen pf) :
    M.uStart ≤ M.frame pf i ↔ pf = .user := by
  have pools := M.pools
  cases pf with
  | kernel =>
    simp only [Machine.frame, Machine.poolStart, Machine.poolLen, kStart, pgSize] at *
    simp only [reduceCtorEq, iff_false]
    omega
  | user => simp [Machine.frame, Machine.poolStart]

theorem pfree_frame {pf : PoolFlags} {i : Nat} (hi : i < M.poolLen pf) :
    Succeeds (pfree M (M.frame pf i)) (fun _ t => t = s.setPool pf i false) s := by
  unfold pfree
  simp only [Succeeds, wp_ite, wp_modify, frame_user hi]
  have idx : (M.frame pf i - M.poolStart pf) / pgSize = i := by
    simp only [Machine.frame, Nat.add_sub_cancel, pgSize]
    omega
  constructor
  · rintro rfl
    exact congrArg (fun j => s.setPool .user j false) idx
  · intro hne
    obtain rfl : pf = .kernel := by cases pf <;> simp at hne ⊢
    exact congrArg (fun j => s.setPool .kernel j false) idx

theorem setPool_poolBit {pf pf' : PoolFlags} {i j : Nat} {b : Bool} :
    (s.setPool pf i b).poolBit pf' j = if pf' = pf ∧ j = i then b else s.poolBit pf' j := by
  have one : (i ≤ j ∧ j ≤ i) ↔ j = i := by omega
  cases pf <;> cases pf' <;> simp [VM.setPool, VM.poolBit, setBits, one]

/-- The entry of a page in use is the one its frame is read from. -/
theorem pteOf_used {pf : PoolFlags} {p n f : Nat} (core : PageCore M s)
    (use : Uses s (.page (half p pf) n) f) :
    (s.pde p (n / 1024)).addr = tableOf s (half p pf) n ∧
      Succeeds (pteOf p (n * pgSize)) (fun e t => e = ⟨f, true⟩ ∧ t = s) s := by
  have idx := pdeIdx_page (n := n) (o := 0) (by decide)
  have idx' := pteIdx_page (n := n) (o := 0) (by decide)
  rw [Nat.add_zero] at idx idx'
  obtain ⟨backed, entry⟩ := uses_page.1 use
  have here : s.pde p (n / 1024) = ⟨tableOf s (half p pf) n, true⟩ := by
    cases pf with
    | kernel =>
      rw [core.kernel_pde p (n / 1024) (by have := backed.1; omega) (by have := backed.2; omega)]
      rfl
    | user =>
      have pres := backed.2.2
      cases he : s.pde p (n / 1024) with
      | mk addr present =>
        rw [he] at pres
        obtain rfl : present = true := pres
        simp [half, tableOf, he]
  refine ⟨by rw [here], ?_⟩
  simp [pteOf, wp_ite, idx, idx', here, entry]

theorem releasePage_spec {pf : PoolFlags} {p n i : Nat} {inPool : Nat → Bool}
    (core : PageCore M s) (hi : i < M.poolLen pf)
    (use : Uses s (.page (half p pf) n) (M.frame pf i)) (pool : inPool (M.frame pf i) = true) :
    Succeeds (releasePage M p (n * pgSize) inPool)
      (fun _ t => Released M s t fun sl => sl = .page (half p pf) n) s := by
  obtain ⟨table, entry⟩ := pteOf_used core use
  have aligned : n * pgSize % pgSize = 0 := Nat.mul_mod_left _ _
  have idx := pdeIdx_page (n := n) (o := 0) (by decide)
  have idx' := pteIdx_page (n := n) (o := 0) (by decide)
  rw [Nat.add_zero] at idx idx'
  simp only [releasePage, addrV2p, pageTablePteRemove, Succeeds, wp_bind, wp_pure, wp_assert,
    wp_modify]
  refine wp_post entry ?_
  rintro e t ⟨rfl, rfl⟩
  simp only [aligned, Nat.add_zero, frame_mod, pool]
  refine ⟨fun _ => ?_, fun hn => hn ⟨trivial, trivial⟩⟩
  refine wp_post (pfree_frame hi) ?_
  rintro _ u rfl
  have pde : (t.setPool pf i false).pde = t.pde := by cases pf <;> rfl
  have pte : (t.setPool pf i false).pte = t.pte := by cases pf <;> rfl
  have entry' : Succeeds (pteOf p (n * pgSize))
      (fun e v => e = ⟨M.frame pf i, true⟩ ∧ v = t.setPool pf i false) (t.setPool pf i false) := by
    obtain ⟨backed, he⟩ := uses_page.1 use
    obtain ⟨_, _, run, rfl, rfl⟩ := succeeds_iff.1 entry
    revert run
    rw [runs_iff]
    simp only [pteOf, Succeeds, wp_bind, wp_get, wp_ite, wp_pure, wp_throw, pde, pte]
    intro run
    exact ⟨fun hp => ⟨(run.1 hp).1, trivial⟩, run.2⟩
  refine wp_post entry' ?_
  rintro e v ⟨rfl, rfl⟩
  rw [idx, idx', pde, table]
  have backed := (uses_page.1 use).1
  have step := fun sl f => core.uses_setPte (x := sl) (f := f)
    (e := ⟨M.frame pf i, false⟩) backed
  have same : ∀ sl f, Uses ((t.setPool pf i false).setPte (tableOf t (half p pf) n) (n % 1024)
      ⟨M.frame pf i, false⟩) sl f ↔ Uses (t.setPte (tableOf t (half p pf) n) (n % 1024)
      ⟨M.frame pf i, false⟩) sl f :=
    fun sl f => uses_congr (by exact pde) (by simp [VM.setPte, pte])
  refine ⟨?_, pde, ?_, ?_⟩
  · cases pf <;> exact ⟨rfl, rfl, rfl⟩
  · intro sl f
    rw [same, step]
    simp [and_comm]
  · intro pf' j hj
    have keep : ((t.setPool pf i false).setPte (tableOf t (half p pf) n) (n % 1024)
        ⟨M.frame pf i, false⟩).poolBit pf' j = (t.setPool pf i false).poolBit pf' j := by
      cases pf' <;> rfl
    rw [keep, setPool_poolBit]
    by_cases here : pf' = pf ∧ j = i
    · obtain ⟨rfl, rfl⟩ := here
      simp [use]
    · have other : ¬ Uses t (.page (half p pf) n) (M.frame pf' j) := by
        intro hu
        exact here (frame_inj hj hi (hu.fun use))
      simp [here, other]

/-- The slot is one of the cnt pages from n on. -/
def InRange (h : Option Nat) (n cnt : Nat) (sl : Slot) : Prop := ∃ k < cnt, sl = .page h (n + k)

theorem release_loop {pf : PoolFlags} {p n cnt : Nat} {inPool : Nat → Bool} (core : PageCore M s)
    (use : ∀ k < cnt, ∃ i < M.poolLen pf, Uses s (.page (half p pf) (n + k)) (M.frame pf i))
    (pool : ∀ i < M.poolLen pf, inPool (M.frame pf i) = true) :
    Succeeds (forRange cnt fun k => releasePage M p (n * pgSize + k * pgSize) inPool)
      (fun _ t => Released M s t (InRange (half p pf) n cnt)) s := by
  apply wp_forRange fun k t => Released M s t (InRange (half p pf) n k)
  · exact Released.refl.congr fun sl => by simp [InRange]
  · intro k t hk rel
    obtain ⟨i, hi, hu⟩ := use k hk
    have fresh : ¬ InRange (half p pf) n k (.page (half p pf) (n + k)) := by
      rintro ⟨j, hj, he⟩
      simp only [Slot.page.injEq] at he
      omega
    have step := releasePage_spec (rel.core core) hi ((rel.uses _ _).2 ⟨hu, fresh⟩) (pool i hi)
    rw [Nat.add_mul] at step
    refine wp_post step ?_
    intro _ u rel'
    refine (rel.trans rel').congr ?_
    intro sl
    constructor
    · rintro (⟨j, hj, rfl⟩ | rfl)
      · exact ⟨j, by omega, rfl⟩
      · exact ⟨k, by omega, rfl⟩
    · rintro ⟨j, hj, rfl⟩
      rcases Nat.lt_succ_iff_lt_or_eq.1 hj with hj | rfl
      · exact Or.inl ⟨j, hj, rfl⟩
      · exact Or.inr rfl

/-- The cnt pages from n on are gone, with the pool bits of their frames and their bits of
the virtual pages; everything else is as before. -/
structure Freed (M : Machine) (s t : VM) (h : Option Nat) (n cnt : Nat) : Prop where
  uses : ∀ sl f, Uses t sl f ↔ Uses s sl f ∧ ¬ InRange h n cnt sl
  bits : ∀ pf i, i < M.poolLen pf → (t.poolBit pf i = true ↔
    s.poolBit pf i = true ∧ ∀ sl, InRange h n cnt sl → ¬ Uses s sl (M.frame pf i))
  vaddr : ∀ h' m, InVaddr M h' m → (t.vaddrBit h' m = true ↔
    s.vaddrBit h' m = true ∧ ¬ InRange h n cnt (.page h' m))

theorem inRange_page {h h' : Option Nat} {n cnt m : Nat} :
    InRange h n cnt (.page h' m) ↔ h' = h ∧ n ≤ m ∧ m < n + cnt := by
  constructor
  · rintro ⟨k, hk, he⟩
    simp only [Slot.page.injEq] at he
    exact ⟨he.1, by omega, by omega⟩
  · rintro ⟨rfl, lo, hi⟩
    exact ⟨m - n, by omega, by congr 1; omega⟩

/-- Clearing the virtual bits of pages that are no longer mapped. -/
theorem vaddrRemove_spec {pf : PoolFlags} {p n cnt : Nat} (core : PageCore M s)
    (rel : Released M s t (InRange (half p pf) n cnt)) (first : InVaddr M (half p pf) n) :
    Succeeds (vaddrRemove pf p (n * pgSize) cnt) (fun _ u => PageCore M u ∧
      Freed M s u (half p pf) n cnt ∧ u.runs = s.runs) t := by
  have idx := bitIdx_page first (o := 0) (by decide)
  rw [Nat.add_zero] at idx
  have split := first.ge
  have run : Succeeds (vaddrRemove pf p (n * pgSize) cnt)
      (fun _ u => u = t.reserve pf p (n - vaddrBase pf) cnt false) t := by
    rw [← idx]
    cases pf with
    | kernel =>
      rw [show vaddrBase .kernel * pgSize = kHeapStart by decide]
      exact (wp_modify _).2 rfl
    | user =>
      rw [show vaddrBase .user * pgSize = userVaddrStart by decide]
      exact (wp_modify _).2 rfl
  refine wp_post run ?_
  rintro _ u rfl
  have phys : SamePhys t (t.reserve pf p (n - vaddrBase pf) cnt false) := reserve_samePhys
  have bits : ∀ h m, InVaddr M h m →
      ((t.reserve pf p (n - vaddrBase pf) cnt false).vaddrBit h m = true ↔
        s.vaddrBit h m = true ∧ ¬ InRange (half p pf) n cnt (.page h m)) := by
    intro h m hm
    rw [vaddrBit_reserve hm, inRange_page, show vaddrBase pf + (n - vaddrBase pf) = n by omega]
    have same : t.vaddrBit h m = s.vaddrBit h m := by
      cases h <;> simp only [VM.vaddrBit, rel.virt.1, rel.virt.2.1]
    rw [same]
    split <;> simp [*]
  refine ⟨(rel.core core).samePhys phys ?_, ⟨?_, ?_, bits⟩, reserve_runs.trans rel.virt.2.2⟩
  · intro h m f hf hr
    obtain ⟨hu, hout⟩ := (rel.uses _ f).1 hf
    exact ⟨hr.1, (bits h m hr.1).2 ⟨(rel.virt.reserved.1 hr).2, hout⟩⟩
  · intro sl f
    rw [phys.uses, rel.uses]
  · intro pf' i hi
    rw [phys.poolBit, rel.bits pf' i hi]

/-- A reserved page in use holds a frame of its own pool. -/
theorem PageCore.pool_frame {pf : PoolFlags} {p n f : Nat} (core : PageCore M s)
    (res : Reserved M s (half p pf) n) (use : Uses s (.page (half p pf) n) f) :
    ∃ i < M.poolLen pf, f = M.frame pf i := by
  have pool : poolOf (.page (half p pf) n) = pf := by cases pf <;> rfl
  rcases core.marked _ f use with ⟨i, hi, rfl, -⟩ | ⟨m, hm, he, -⟩
  · rw [pool] at hi ⊢
    exact ⟨i, hi, rfl⟩
  · simp only [Slot.page.injEq] at he
    obtain ⟨hh, rfl⟩ := he
    rcases res.bounds with ⟨-, h1, h2⟩ | ⟨rfl, -, -⟩
    · omega
    · cases hh

theorem mfreePage_spec {pf : PoolFlags} {p n cnt : Nat} (core : PageCore M s) (pos : 0 < cnt)
    (res : ∀ k < cnt, Reserved M s (half p pf) (n + k))
    (use : ∀ k < cnt, ∃ f, Uses s (.page (half p pf) (n + k)) f) :
    Succeeds (mfreePage M pf p (n * pgSize) cnt) (fun _ u => PageCore M u ∧
      Freed M s u (half p pf) n cnt ∧ u.runs = s.runs) s := by
  have frames : ∀ k < cnt, ∃ i < M.poolLen pf,
      Uses s (.page (half p pf) (n + k)) (M.frame pf i) := by
    intro k hk
    obtain ⟨f, hf⟩ := use k hk
    obtain ⟨i, hi, rfl⟩ := core.pool_frame (res k hk) hf
    exact ⟨i, hi, hf⟩
  obtain ⟨i, hi, hu⟩ := frames 0 pos
  obtain ⟨-, entry⟩ := pteOf_used core hu
  have low : 0x102000 ≤ M.frame pf i := by
    have := frame_ge (M := M) pf i
    simp only [kStart] at this
    omega
  have aligned : n * pgSize % pgSize = 0 := Nat.mul_mod_left _ _
  simp only [mfreePage, addrV2p, Succeeds, wp_bind, wp_assert, wp_pure, aligned]
  refine ⟨fun _ => ?_, fun hn => hn ⟨pos, trivial⟩⟩
  refine wp_post entry ?_
  rintro e t ⟨rfl, rfl⟩
  simp only [Nat.add_zero, frame_mod, wp_ite, wp_bind, frame_user hi]
  refine ⟨fun _ => ⟨?_, ?_⟩, fun hn => hn ⟨trivial, low⟩⟩
  · rintro rfl
    refine wp_post (release_loop core frames fun j hj => ?_) ?_
    · simpa using (frame_user hj).2 rfl
    · intro _ u rel
      exact vaddrRemove_spec core rel (res 0 pos).1
  · intro hne
    obtain rfl : pf = .kernel := by cases pf <;> simp at hne ⊢
    refine wp_post (release_loop core frames fun j hj => ?_) ?_
    · have := frame_ge (M := M) .kernel j
      have := frame_user hj
      simp only [reduceCtorEq, iff_false] at this
      simp only [Bool.decide_and, Bool.and_eq_true, decide_eq_true_eq]
      omega
    · intro _ u rel
      exact vaddrRemove_spec core rel (res 0 pos).1

/-! Runs of calls. -/

/-- In good order: every range handed out is reserved and mapped, and no two overlap. -/
structure PageInv (M : Machine) (s : VM) : Prop where
  core : PageCore M s
  aligned : ∀ h v, 0 < s.runs h v → v % pgSize = 0
  held : ∀ h v k, k < s.runs h v → Reserved M s h (v / pgSize + k) ∧
    ∃ f, Uses s (.page h (v / pgSize + k)) f
  apart : ∀ h v v' k k', k < s.runs h v → k' < s.runs h v' →
    v / pgSize + k = v' / pgSize + k' → v = v'

theorem pageInv_start (start : PageStart s) : PageInv M s := by
  have low : ∀ sl f, Uses s sl f → Low sl f := by
    rintro (⟨_ | p, n⟩ | ⟨p, i⟩) f hf
    · obtain ⟨h1, h2, h3⟩ := hf
      by_cases hn : n < 0xc0100
      · refine ⟨n, hn, rfl, ?_⟩
        have entry := start.low (n % 1024) (by omega)
        rw [show n / 1024 = 768 by omega, entry] at h3
        simp only [Entry.mk.injEq, pgSize] at h3
        omega
      · have entry := start.empty (n / 1024) (n % 1024) (by omega) (by omega) (by omega)
        rw [entry] at h3
        cases h3
    · obtain ⟨h1, h2, h3, -⟩ := hf
      rw [start.user_pde p _ h1 (by omega)] at h3
      cases h3
    · obtain ⟨h1, h2, h3⟩ := hf
      rw [start.user_pde p i h1 h2] at h3
      cases h3
  have none_held : ∀ h v k, ¬ k < s.runs h v := by
    intro h v k
    rw [start.runs]
    omega
  refine ⟨⟨start.kernel_pde, fun sl f hf => Or.inr (low sl f hf), ?_, ?_⟩, ?_, ?_, ?_⟩
  · intro a b f ha _ hf
    obtain ⟨n, -, -, hlow⟩ := low a f ha
    omega
  · intro h n f hf
    obtain ⟨m, hm, he, -⟩ := low _ f hf
    cases he
    exact Or.inr ⟨rfl, hm⟩
  · intro h v hv
    exact (none_held h v 0 hv).elim
  · intro h v k hk
    exact (none_held h v k hk).elim
  · intro h v v' k k' hk
    exact (none_held h v k hk).elim

/-- Mapping more pages leaves the ranges handed out as they are. -/
theorem PageInv.more (inv : PageInv M s) (core : PageCore M t) (runs : t.runs = s.runs)
    (uses : ∀ sl f, Uses s sl f → Uses t sl f)
    (reserved : ∀ h n, Reserved M s h n → Reserved M t h n) : PageInv M t where
  core := core
  aligned := by rw [runs]; exact inv.aligned
  held h v k hk := by
    rw [runs] at hk
    obtain ⟨hr, f, hf⟩ := inv.held h v k hk
    exact ⟨reserved _ _ hr, f, uses _ f hf⟩
  apart := by rw [runs]; exact inv.apart

/-- page_table_add is never short of a page table: when the directory entry is missing,
bitmap_scan finds a frame in the kernel pool. -/
def HasTables (M : Machine) (s : VM) : PageEvent → Prop
  | .mallocPage pf p pgCnt => ∀ v t, vaddrGet M pf p pgCnt s = .ok (some v, t) →
      TablesFound M pf p pgCnt v t
  | .getAPage _ p vaddr => TableFound M s p vaddr
  | .getAPageWithoutOpvaddrbitmap _ p vaddr => TableFound M s p vaddr
  | .mfreePage _ _ _ _ => True

/-- What vaddr_get reserved is not mapped yet. -/
theorem Got.unmapped {pf : PoolFlags} {p n cnt : Nat} (core : PageCore M s)
    (got : Got M s t (half p pf) n cnt) :
    PageCore M t ∧ ∀ k < cnt, ∀ g, ¬ Uses t (.page (half p pf) (n + k)) g := by
  refine ⟨core.samePhys got.phys fun h m _ _ hr => got.kept h m hr, ?_⟩
  intro k hk g hg
  rcases core.reserved _ _ g (got.phys.uses.1 hg) with hr | ⟨hh, hm⟩
  · exact got.fresh k hk hr
  · rcases (got.taken k hk).bounds with ⟨-, h1, -⟩ | ⟨rfl, -, -⟩
    · omega
    · cases hh

theorem mallocPage_spec {pf : PoolFlags} {p cnt : Nat} (inv : PageInv M s)
    (tables : HasTables M s (.mallocPage pf p cnt)) :
    Returns (mallocPage M pf p cnt) (fun r t => ∀ v, r = some v → ∃ n, v = n * pgSize ∧
      PageInv M t ∧ (∀ k < cnt, ¬ Reserved M s (half p pf) (n + k)) ∧ t.runs = s.runs ∧
      ∀ k < cnt, Reserved M t (half p pf) (n + k) ∧
        ∃ f, Uses t (.page (half p pf) (n + k)) f) s := by
  simp only [mallocPage, Returns, wp_bind, wp_assert]
  refine ⟨fun _ => ?_, fun _ => trivial⟩
  have get := vaddrGet_spec (M := M) (s := s) pf p cnt
  cases run : vaddrGet M pf p cnt s with
  | error e => exact (wp_of_error run).2 trivial
  | ok r =>
    rw [wp_of_ok run]
    rw [Returns, wp_of_ok run] at get
    rcases get with hn | ⟨n, hn, got⟩
    · rw [hn, wp_pure]
      intro v hv
      cases hv
    · rw [hn]
      obtain ⟨core, free⟩ := got.unmapped inv.core
      have found : TablesFound M pf p cnt (n * pgSize) r.2 := tables _ _ (by rw [run, ← hn])
      simp only [wp_bind]
      refine wp_mono (mapPages_spec cnt n r.2 core got.taken free found) ?_ fun _ _ => trivial
      rintro b u ⟨core', ext, all⟩
      simp only [wp_ite, wp_pure]
      constructor
      · intro hb v hv
        cases hv
        have reserved : ∀ h m, Reserved M s h m → Reserved M u h m :=
          fun h m hr => ext.virt.reserved.2 (got.kept h m hr)
        have runs : u.runs = s.runs := ext.virt.2.2.trans got.runs
        refine ⟨n, rfl, inv.more core' runs ?_ reserved, got.fresh, runs, ?_⟩
        · exact fun sl f hf => ext.kept sl f (got.phys.uses.2 hf)
        · exact fun k hk => ⟨ext.virt.reserved.2 (got.taken k hk), all hb k hk⟩
      · intro _ v hv
        cases hv

@[simp] theorem setRun_runs {h h' : Option Nat} {v v' cnt : Nat} :
    (s.setRun h v cnt).runs h' v' = if h' = h ∧ v' = v then cnt else s.runs h' v' := by
  by_cases hh : h' = h
  · subst hh
    simp [VM.setRun, Function.update_apply]
  · simp [VM.setRun, hh]

theorem setRun_samePhys {h : Option Nat} {v cnt : Nat} : SamePhys s (s.setRun h v cnt) :=
  ⟨rfl, rfl, rfl, rfl⟩

theorem malloc_step {pf : PoolFlags} {p cnt : Nat} (inv : PageInv M s)
    (tables : HasTables M s (.mallocPage pf p cnt)) :
    Returns (pagePerform M (.mallocPage pf p cnt)) (fun r t => r = true → PageInv M t) s := by
  simp only [pagePerform, Returns, wp_bind]
  refine wp_post (mallocPage_spec inv tables) ?_
  intro r t post
  cases r with
  | none => exact (wp_pure _).2 fun hr => by cases hr
  | some v =>
    obtain ⟨n, rfl, inv', fresh, runs, new⟩ := post v rfl
    simp only [wp_bind, wp_modify, wp_pure]
    intro _
    have page : n * pgSize / pgSize = n := Nat.mul_div_cancel n (by decide)
    -- an older range has no page in common with the new one
    have old : ∀ v k, k < t.runs (half p pf) v → ∀ j < cnt, v / pgSize + k ≠ n + j := by
      intro v k hk j hj he
      rw [runs] at hk
      exact fresh j hj (he ▸ (inv.held _ v k hk).1)
    refine ⟨inv'.core.samePhys setRun_samePhys fun _ _ _ _ hr => hr, ?_, ?_, ?_⟩
    · intro h v hv
      rw [setRun_runs] at hv
      split at hv
      · rename_i he
        rw [he.2]
        exact Nat.mul_mod_left _ _
      · exact inv'.aligned h v hv
    · intro h v k hk
      rw [setRun_runs] at hk
      split at hk
      · rename_i he
        rw [he.1, he.2, page]
        exact new k hk
      · exact inv'.held h v k hk
    · intro h v v' k k' hk hk' he
      rw [setRun_runs] at hk hk'
      split at hk <;> split at hk'
      · rename_i h1 h2
        rw [h1.2, h2.2]
      · rename_i h1 h2
        rw [h1.2, page] at he
        rw [h1.1] at hk'
        exact (old v' k' hk' k hk he.symm).elim
      · rename_i h1 h2
        rw [h2.2, page] at he
        rw [h2.1] at hk
        exact (old v k hk k' hk' he).elim
      · exact inv'.apart h v v' k k' hk hk' he

theorem mfree_step {pf : PoolFlags} {p v cnt : Nat} (inv : PageInv M s)
    (allowed : PageAllowed M s (.mfreePage pf p v cnt)) :
    Succeeds (pagePerform M (.mfreePage pf p v cnt)) (fun r t => r = true ∧ PageInv M t ∧
      Freed M s t (half p pf) (v / pgSize) cnt) s := by
  obtain ⟨pos, hrun⟩ := allowed
  have aligned := inv.aligned (half p pf) v (by omega)
  have page : v / pgSize * pgSize = v := Nat.div_mul_cancel (Nat.dvd_of_mod_eq_zero aligned)
  have held : ∀ k < cnt, _ := fun k hk => inv.held (half p pf) v k (by omega)
  have free := mfreePage_spec inv.core pos (fun k hk => (held k hk).1) fun k hk => (held k hk).2
  rw [page] at free
  simp only [pagePerform, Succeeds, wp_bind, wp_modify, wp_pure]
  refine wp_post free ?_
  rintro _ u ⟨core, freed, runs⟩
  refine ⟨trivial, ⟨core.samePhys setRun_samePhys fun _ _ _ _ hr => hr, ?_, ?_, ?_⟩,
    freed.uses, freed.bits, freed.vaddr⟩
  · intro h w hw
    rw [setRun_runs, runs] at hw
    split at hw
    · omega
    · exact inv.aligned h w hw
  · intro h w k hk
    rw [setRun_runs, runs] at hk
    split at hk
    · omega
    · rename_i other
      obtain ⟨res, f, hf⟩ := inv.held h w k hk
      have out : ¬ InRange (half p pf) (v / pgSize) cnt (.page h (w / pgSize + k)) := by
        rw [inRange_page]
        rintro ⟨rfl, lo, hi⟩
        refine other ⟨rfl, inv.apart _ w v k (w / pgSize + k - v / pgSize) hk (by omega) (by omega)⟩
      exact ⟨⟨res.1, (freed.vaddr h _ res.1).2 ⟨res.2, out⟩⟩, f, (freed.uses _ f).2 ⟨hf, out⟩⟩
  · intro h w w' k k' hk hk'
    rw [setRun_runs, runs] at hk hk'
    split at hk
    · omega
    · split at hk'
      · omega
      · exact inv.apart h w w' k k' hk hk'

/-- Adding a page that is mapped already does not return. -/
theorem pageTableAdd_mapped {pf : PoolFlags} {p n o f g : Nat} (core : PageCore M s)
    (ho : o < pgSize) (use : Uses s (.page (half p pf) n) g) :
    Returns (pageTableAdd M p (n * pgSize + o) f) (fun _ _ => False) s := by
  obtain ⟨table, entry⟩ := pteOf_used core use
  obtain ⟨backed, he⟩ := uses_page.1 use
  have pres : (s.pde p (n / 1024)).present = true := by
    cases pf with
    | kernel =>
      rw [core.kernel_pde p (n / 1024) (by have := backed.1; omega) (by have := backed.2; omega)]
    | user => exact backed.2.2
  simp [pageTableAdd, wp_ite, pdeIdx_page ho, pteIdx_page ho, pres, table, he]

theorem getWithout_spec {pf : PoolFlags} {p n o : Nat} (core : PageCore M s) (ho : o < pgSize)
    (res : Reserved M s (half p pf) n) (table : TableFound M s p (n * pgSize + o)) :
    Returns (getAPageWithoutOpvaddrbitmap M pf p (n * pgSize + o)) (fun r t => r.isSome = true →
      PageCore M t ∧ Extends s t fun sl => sl = .page (half p pf) n) s := by
  simp only [getAPageWithoutOpvaddrbitmap, Returns, wp_bind]
  refine wp_mono (palloc_spec core pf) ?_ fun _ _ => trivial
  rintro r t (⟨rfl, -, -⟩ | ⟨f, rfl, core', marked, unused, virt, pde, pte, pool, -⟩)
  · exact (wp_pure _).2 fun hr => by cases hr
  simp only [wp_bind, wp_pure]
  have uses : ∀ sl g, Uses t sl g ↔ Uses s sl g := fun sl g => uses_congr pde pte
  have ext : Extends s t fun _ => False :=
    ⟨virt, fun sl g hg => (uses sl g).2 hg, fun sl g hg => Or.inl ((uses sl g).1 hg)⟩
  have table' : TableFound M t p (n * pgSize + o) := by
    rcases table with hp | hs
    · exact Or.inl (by rw [pde]; exact hp)
    · cases pf with
      | kernel =>
        have bounds := res.bounds
        simp only [reduceCtorEq, false_and, or_false] at bounds
        refine Or.inl ?_
        rw [pdeIdx_page ho, core'.kernel_pde p (n / 1024) (by omega) (by omega)]
      | user =>
        refine Or.inr ?_
        simp only [Machine.scanPool, pool rfl] at hs ⊢
        exact hs
  by_cases free : ∀ g, ¬ Uses t (.page (half p pf) n) g
  · refine wp_mono (pageTableAdd_spec core' ho (virt.reserved.2 res) marked unused free table') ?_
      fun _ _ => trivial
    rintro _ u ⟨core'', ext', -⟩ _
    refine ⟨core'', (ext.trans ext').mono ?_⟩
    rintro sl (h | h)
    · exact h.elim
    · exact h
  · push Not at free
    obtain ⟨g, hg⟩ := free
    refine wp_post (pageTableAdd_mapped core' ho hg) ?_
    intro _ _ h
    exact h.elim

theorem getWithout_step {pf : PoolFlags} {p n o : Nat} (inv : PageInv M s) (ho : o < pgSize)
    (res : Reserved M s (half p pf) n) (table : TableFound M s p (n * pgSize + o)) :
    Returns (getAPageWithoutOpvaddrbitmap M pf p (n * pgSize + o))
      (fun r t => r.isSome = true → PageInv M t) s := by
  refine wp_post (getWithout_spec inv.core ho res table) ?_
  intro r t post hr
  obtain ⟨core, ext⟩ := post hr
  exact inv.more core ext.virt.2.2 ext.kept fun h m hm => ext.virt.reserved.2 hm

theorem getAPage_kernel (p vaddr : Nat) : getAPage M .kernel p vaddr = (do
    assert (p = 0)
    assert (0 < bitIdx vaddr kHeapStart)
    modify fun s => s.reserve .kernel p (bitIdx vaddr kHeapStart) 1 true
    getAPageWithoutOpvaddrbitmap M .kernel p vaddr) := rfl

theorem getAPage_user (p vaddr : Nat) : getAPage M .user p vaddr = (do
    assert (p ≠ 0)
    assert (0 < bitIdx vaddr userVaddrStart)
    modify fun s => s.reserve .user p (bitIdx vaddr userVaddrStart) 1 true
    getAPageWithoutOpvaddrbitmap M .user p vaddr) := rfl

/-- get_a_page sets the bit of the page and goes on as the variant for fork. -/
theorem getAPage_step {pf : PoolFlags} {p n o : Nat} (inv : PageInv M s) (ho : o < pgSize)
    (inside : InVaddr M (half p pf) n) (table : TableFound M s p (n * pgSize + o)) :
    Returns (getAPage M pf p (n * pgSize + o)) (fun r t => r.isSome = true → PageInv M t) s := by
  have idx := bitIdx_page inside ho
  have ge := inside.ge
  let t := s.reserve pf p (n - vaddrBase pf) 1 true
  have kept : ∀ h m, Reserved M s h m → Reserved M t h m := by
    intro h m hr
    refine ⟨hr.1, ?_⟩
    rw [vaddrBit_reserve hr.1, hr.2]
    simp
  have res : Reserved M t (half p pf) n := by
    refine ⟨inside, ?_⟩
    rw [vaddrBit_reserve inside, if_pos ⟨rfl, by omega, by omega⟩]
  have phys : SamePhys s t := reserve_samePhys
  have inv' : PageInv M t := by
    refine inv.more (inv.core.samePhys phys fun h m _ _ hr => kept h m hr) reserve_runs ?_ kept
    exact fun sl f hf => phys.uses.2 hf
  have table' : TableFound M t p (n * pgSize + o) := by
    unfold TableFound Machine.scanPool at *
    rw [phys.1, phys.2.2.1]
    exact table
  have go := getWithout_step inv' ho res table'
  cases pf with
  | kernel =>
    rw [show vaddrBase .kernel * pgSize = kHeapStart by decide] at idx
    rw [getAPage_kernel, Returns, wp_bind, wp_assert]
    refine ⟨fun _ => ?_, fun _ => trivial⟩
    rw [wp_bind, wp_assert]
    refine ⟨fun _ => ?_, fun _ => trivial⟩
    rw [wp_bind, wp_modify, idx]
    exact go
  | user =>
    rw [show vaddrBase .user * pgSize = userVaddrStart by decide] at idx
    rw [getAPage_user, Returns, wp_bind, wp_assert]
    refine ⟨fun _ => ?_, fun _ => trivial⟩
    rw [wp_bind, wp_assert]
    refine ⟨fun _ => ?_, fun _ => trivial⟩
    rw [wp_bind, wp_modify, idx]
    exact go

theorem page_split (v : Nat) : v / pgSize * pgSize + v % pgSize = v := Nat.div_add_mod' v pgSize

theorem pageInv_step {e : PageEvent} (inv : PageInv M s) (allowed : PageAllowed M s e)
    (tables : HasTables M s e) (run : pagePerform M e s = .ok (true, t)) : PageInv M t := by
  have small : ∀ v : Nat, v % pgSize < pgSize := fun v => Nat.mod_lt v (by decide)
  cases e with
  | mallocPage pf p cnt => exact returns_iff.1 (malloc_step inv tables) _ _ run rfl
  | getAPage pf p v =>
    have step := getAPage_step inv (small v) allowed (by rw [page_split]; exact tables)
    rw [page_split] at step
    have whole : Returns (pagePerform M (.getAPage pf p v)) (fun r t => r = true → PageInv M t) s := by
      simpa only [pagePerform, Returns, wp_bind, wp_pure] using step
    exact returns_iff.1 whole _ _ run rfl
  | getAPageWithoutOpvaddrbitmap pf p v =>
    have step := getWithout_step inv (small v) allowed (by rw [page_split]; exact tables)
    rw [page_split] at step
    have whole : Returns (pagePerform M (.getAPageWithoutOpvaddrbitmap pf p v))
        (fun r t => r = true → PageInv M t) s := by
      simpa only [pagePerform, Returns, wp_bind, wp_pure] using step
    exact returns_iff.1 whole _ _ run rfl
  | mfreePage pf p v cnt =>
    obtain ⟨r, u, run', -, inv', -⟩ := succeeds_iff.1 (mfree_step inv allowed)
    rw [run] at run'
    cases run'
    exact inv'

/-- Steps in which page_table_add is not short of a page table. -/
def PageStepFound (M : Machine) (s t : VM) : Prop :=
  ∃ e, PageAllowed M s e ∧ HasTables M s e ∧ pagePerform M e s = .ok (true, t)

theorem pageInv_reachable (h : Reachable PageStart (PageStepFound M) s) : PageInv M s := by
  refine h.invariant (I := PageInv M) (fun s => pageInv_start) ?_
  rintro s t inv ⟨e, allowed, tables, run⟩
  exact pageInv_step inv allowed tables run

/-- The loop of malloc_page maps the whole range vaddr_get returned, or stops at a palloc
that finds nothing; none of the ASSERTs of page_table_add fails. -/
theorem mapPages_returns {pf : PoolFlags} {p cnt v : Nat} (inv : PageInv M s)
    (get : vaddrGet M pf p cnt s = .ok (some v, t)) (found : TablesFound M pf p cnt v t) :
    Succeeds (mapPages M pf p cnt v) (fun _ _ => True) t := by
  rcases returns_iff.1 (vaddrGet_spec (M := M) (s := s) pf p cnt) _ _ get with hn | ⟨n, hn, got⟩
  · cases hn
  cases hn
  obtain ⟨core, free⟩ := got.unmapped inv.core
  exact wp_post (mapPages_spec cnt n t core got.taken free found) fun _ _ _ => trivial

/-- In every state of a run in which page_table_add is never short of a page table, no
frame of a pool has two uses, its bit is set, mfree_page undoes malloc_page, and no ASSERT
of page_table_add fails in a range from vaddr_get. -/
theorem page_mapping (h : Reachable PageStart (PageStepFound M) s) :
    (∀ a b pf i, i < M.poolLen pf → Uses s a (M.frame pf i) → Uses s b (M.frame pf i) → a = b) ∧
    (∀ sl f, Uses s sl f → Low sl f ∨ ∃ i < M.poolLen (poolOf sl), f = M.frame (poolOf sl) i) ∧
    (∀ sl pf i, i < M.poolLen pf → Uses s sl (M.frame pf i) → s.poolBit pf i = true) ∧
    (∀ pf p v cnt, PageAllowed M s (.mfreePage pf p v cnt) →
      Succeeds (pagePerform M (.mfreePage pf p v cnt))
        (fun r t => r = true ∧ Freed M s t (half p pf) (v / pgSize) cnt) s) ∧
    (∀ pf p cnt v t, vaddrGet M pf p cnt s = .ok (some v, t) → TablesFound M pf p cnt v t →
      Succeeds (mapPages M pf p cnt v) (fun _ _ => True) t) := by
  have inv := pageInv_reachable h
  have big : ∀ pf i, 0x100000 ≤ M.frame pf i := by
    intro pf i
    have := frame_ge (M := M) pf i
    simp only [kStart] at this
    omega
  refine ⟨?_, ?_, ?_, ?_, ?_⟩
  · intro a b pf i _ ha hb
    exact inv.core.uniq a b _ ha hb (big pf i)
  · intro sl f hf
    rcases inv.core.marked sl f hf with ⟨i, hi, he, -⟩ | hl
    · exact Or.inr ⟨i, hi, he⟩
    · exact Or.inl hl
  · intro sl pf i hi hf
    rcases inv.core.marked sl _ hf with ⟨j, hj, he, hb⟩ | ⟨n, -, -, hlow⟩
    · obtain ⟨rfl, rfl⟩ := frame_inj hi hj he
      exact hb
    · have := big pf i
      omega
  · intro pf p v cnt allowed
    exact wp_post (mfree_step inv allowed) fun r t post => ⟨post.1, post.2.2⟩
  · intro pf p cnt v t get found
    exact mapPages_returns inv get found

/-! A machine with two small pools. -/

/-- The first run of cnt clear bits among n candidates from i on. -/
def firstFit (bits : Nat → Bool) (len cnt : Nat) : Nat → Nat → Option Nat
  | 0, _ => none
  | n + 1, i =>
    if i + cnt ≤ len ∧ ∀ k < cnt, bits (i + k) = false then some i
    else firstFit bits len cnt n (i + 1)

theorem firstFit_ok {bits : Nat → Bool} {len cnt i : Nat} (n : Nat) :
    ∀ j, firstFit bits len cnt n j = some i →
      i + cnt ≤ len ∧ ∀ k < cnt, bits (i + k) = false := by
  induction n with
  | zero =>
    intro j h
    cases h
  | succ n ih =>
    intro j h
    unfold firstFit at h
    split at h
    · cases h
      assumption
    · exact ih (j + 1) h

/-- Two pools of eight frames each. -/
def tiny : Machine where
  scan bits len cnt := firstFit bits len cnt len 0
  kLen := 8
  uLen := 8
  uStart := 0x208000
  scan_ok bits len cnt i h := firstFit_ok len 0 h
  kLen_small := by decide
  uStart_aligned := by decide
  pools := by decide

def tinyStart : VM where
  kernelPool _ := false
  userPool _ := false
  kernelVaddr _ := false
  userVaddr _ _ := false
  pde _ i := if 768 ≤ i ∧ i < 1023 then ⟨kernelTable i, true⟩ else ⟨0, false⟩
  pte t j := if t = kernelTable 768 ∧ j < 256 then ⟨j * pgSize, true⟩ else ⟨0, false⟩
  runs _ _ := 0

theorem tinyStart_start : PageStart tinyStart where
  kernelPool _ := rfl
  userPool _ := rfl
  kernelVaddr _ := rfl
  userVaddr _ _ := rfl
  kernel_pde p i h1 h2 := if_pos ⟨h1, h2⟩
  user_pde p i _ h := if_neg (by omega)
  low j hj := by simp [tinyStart, hj]
  empty i j h1 h2 h3 := by
    have out : ¬ (kernelTable i = kernelTable 768 ∧ j < 256) := by
      rintro ⟨he, hj⟩
      have := h3 (kernelTable_inj h1 (by decide) he)
      omega
    simp only [tinyStart, out, if_false]
  runs _ _ := rfl

/-- Whether a call was successful. -/
def succeeded (M : Machine) (e : PageEvent) (s : VM) : Bool :=
  match pagePerform M e s with
  | .ok (b, _) => b
  | .error _ => false

/-- The state a call leaves. -/
def after (M : Machine) (e : PageEvent) (s : VM) : VM :=
  match pagePerform M e s with
  | .ok (_, t) => t
  | .error _ => s

theorem run_of_succeeded {e : PageEvent} (h : succeeded M e s = true) :
    pagePerform M e s = .ok (true, after M e s) := by
  unfold succeeded at h
  unfold after
  cases run : pagePerform M e s with
  | error f => simp [run] at h
  | ok r =>
    simp only [run] at h
    simp [← h]

theorem PageStepFound.of_run {e : PageEvent} (h : Reachable PageStart (PageStepFound M) s)
    (allowed : PageAllowed M s e) (tables : HasTables M s e) (run : succeeded M e s = true) :
    Reachable PageStart (PageStepFound M) (after M e s) :=
  h.step ⟨e, allowed, tables, run_of_succeeded run⟩

theorem PageStep.of_run {e : PageEvent} (h : Reachable PageStart (PageStep M) s)
    (allowed : PageAllowed M s e) (run : succeeded M e s = true) :
    Reachable PageStart (PageStep M) (after M e s) :=
  h.step ⟨e, allowed, run_of_succeeded run⟩

/-- TablesFound, evaluated. -/
def findsTables (M : Machine) (pf : PoolFlags) (p : Nat) : Nat → Nat → VM → Bool
  | 0, _, _ => true
  | n + 1, vaddr, s =>
    match palloc M pf s with
    | .ok (some f, t) =>
      ((t.pde p (pdeIdx vaddr)).present || (M.scanPool t .kernel).isSome) &&
        match pageTableAdd M p vaddr f t with
        | .ok (_, u) => findsTables M pf p n (vaddr + pgSize) u
        | .error _ => true
    | _ => true

theorem tablesFound_of_finds {pf : PoolFlags} {p n vaddr : Nat} (finds : findsTables M pf p n vaddr s = true) :
    TablesFound M pf p n vaddr s := by
  induction n generalizing vaddr s with
  | zero => trivial
  | succ n ih =>
    intro f t took
    rw [findsTables, took, Bool.and_eq_true, Bool.or_eq_true] at finds
    refine ⟨finds.1.imp_right fun some => ?_, fun u added => ?_⟩
    · exact Option.isSome_iff_ne_none.1 some
    · have rest := finds.2
      rw [added] at rest
      exact ih rest

/-- The same for the pages that vaddr_get returns. -/
def mallocFinds (M : Machine) (pf : PoolFlags) (p cnt : Nat) (s : VM) : Bool :=
  match vaddrGet M pf p cnt s with
  | .ok (some v, t) => findsTables M pf p cnt v t
  | _ => true

theorem hasTables_of_finds {pf : PoolFlags} {p cnt : Nat} (finds : mallocFinds M pf p cnt s = true) :
    HasTables M s (.mallocPage pf p cnt) := by
  intro v t get
  rw [mallocFinds, get] at finds
  exact tablesFound_of_finds finds

/-- Two pages of process 1. -/
def firstSpace : VM := after tiny (.mallocPage .user 1 2) tinyStart

/-- And one of process 2. -/
def twoSpaces : VM := after tiny (.mallocPage .user 2 1) firstSpace

/-- The first pages of both have frames of their own, and process 1 can give back its two. -/
theorem page_mapping_two_spaces :
    (∀ a, Uses twoSpaces a (tiny.frame .user 0) → a = .page (some 1) 0x8048) ∧
      (∀ a, Uses twoSpaces a (tiny.frame .user 2) → a = .page (some 2) 0x8048) ∧
      Succeeds (pagePerform tiny (.mfreePage .user 1 userVaddrStart 2))
        (fun r t => r = true ∧ Freed tiny twoSpaces t (some 1) 0x8048 2) twoSpaces := by
  have first : Reachable PageStart (PageStepFound tiny) firstSpace :=
    PageStepFound.of_run (.start tinyStart_start) trivial (hasTables_of_finds (by decide +kernel)) (by decide +kernel)
  have second : Reachable PageStart (PageStepFound tiny) twoSpaces :=
    PageStepFound.of_run first trivial (hasTables_of_finds (by decide +kernel)) (by decide +kernel)
  have used : Uses twoSpaces (.page (some 1) 0x8048) (tiny.frame .user 0) :=
    ⟨by decide, by decide, by decide +kernel, by decide +kernel⟩
  have used' : Uses twoSpaces (.page (some 2) 0x8048) (tiny.frame .user 2) :=
    ⟨by decide, by decide, by decide +kernel, by decide +kernel⟩
  obtain ⟨uniq, -, -, free, -⟩ := page_mapping second
  refine ⟨fun a ha => uniq a _ .user 0 (by decide) ha used, fun a ha => uniq a _ .user 2 (by decide) ha used', ?_⟩
  exact free .user 1 userVaddrStart 2 ⟨by decide, by decide +kernel⟩

/-- Once the kernel pool is empty, page_table_add takes frame 0 for a page table, and the
processes 1 and 2 come to share it. -/
theorem page_table_at_zero : ∃ s, Reachable PageStart (PageStep tiny) s ∧
    ∃ a b i, a ≠ b ∧ i < tiny.poolLen .user ∧ Uses s a (tiny.frame .user i) ∧
      Uses s b (tiny.frame .user i) := by
  have h1 : Reachable PageStart (PageStep tiny) _ :=
    PageStep.of_run (e := .mallocPage .kernel 0 8) (.start tinyStart_start) trivial
      (by decide +kernel)
  have h2 := PageStep.of_run (e := .mallocPage .user 1 1) h1 trivial (by decide +kernel)
  have h3 := PageStep.of_run (e := .mallocPage .user 2 1) h2 trivial (by decide +kernel)
  exact ⟨_, h3, .page (some 1) 0x8048, .page (some 2) 0x8048, 1, by decide, by decide,
    ⟨by decide, by decide, by decide +kernel, by decide +kernel⟩,
    ⟨by decide, by decide, by decide +kernel, by decide +kernel⟩⟩

end Zhenxiang.Paging
