import Zhenxiang.Paging.Pages

/-! Which frame is used for what. A frame is used by a page of some half of an address
space that maps it, or by a directory entry whose page table it is; in good order no
frame has two uses, and every use of a frame of a pool shows in the bitmap. -/
namespace Zhenxiang.Paging
open Lib Kernel

inductive Slot where
  | page (h : Option Nat) (n : Nat)
  | table (p i : Nat)
  deriving DecidableEq

/-- The slot holds the frame at the physical address f. -/
def Uses (s : VM) : Slot → Nat → Prop
  | .page none n, f => 0xc0000 ≤ n ∧ n < 0xffc00 ∧
      s.pte (kernelTable (n / 1024)) (n % 1024) = ⟨f, true⟩
  | .page (some p) n, f => 0 < p ∧ n < 0xc0000 ∧ (s.pde p (n / 1024)).present = true ∧
      s.pte (s.pde p (n / 1024)).addr (n % 1024) = ⟨f, true⟩
  | .table p i, f => 0 < p ∧ i < 768 ∧ s.pde p i = ⟨f, true⟩

def poolOf : Slot → PoolFlags
  | .page none _ => .kernel
  | .page (some _) _ => .user
  | .table _ _ => .kernel

def VM.poolBit (s : VM) : PoolFlags → Nat → Bool
  | .kernel => s.kernelPool
  | .user => s.userPool

variable (M : Machine)

def Machine.poolLen : PoolFlags → Nat
  | .kernel => M.kLen
  | .user => M.uLen

def Machine.frame (pf : PoolFlags) (i : Nat) : Nat := i * pgSize + M.poolStart pf

/-- The frame is one of the pool, and its bit is set. -/
def Marked (s : VM) (pf : PoolFlags) (f : Nat) : Prop :=
  ∃ i < M.poolLen pf, f = M.frame pf i ∧ s.poolBit pf i = true

/-- The pages of the first megabyte, which setup_page maps. -/
def Low (sl : Slot) (f : Nat) : Prop := ∃ n < 0xc0100, sl = .page none n ∧ f < 0x100000

structure PageCore (s : VM) : Prop where
  kernel_pde : ∀ p i, 768 ≤ i → i < 1023 → s.pde p i = ⟨kernelTable i, true⟩
  marked : ∀ sl f, Uses s sl f → Marked M s (poolOf sl) f ∨ Low sl f
  uniq : ∀ a b f, Uses s a f → Uses s b f → 0x100000 ≤ f → a = b
  reserved : ∀ h n f, Uses s (.page h n) f → Reserved M s h n ∨ (h = none ∧ n < 0xc0100)

/-! Small facts about indices and frames. -/

theorem pdeIdx_page {n o : Nat} (ho : o < pgSize) : pdeIdx (n * pgSize + o) = n / 1024 := by
  simp only [pdeIdx, pgSize] at *
  omega

theorem pteIdx_page {n o : Nat} (ho : o < pgSize) : pteIdx (n * pgSize + o) = n % 1024 := by
  simp only [pteIdx, pgSize] at *
  omega

variable {M} {s : VM}

theorem frame_ge (pf : PoolFlags) (i : Nat) : kStart ≤ M.frame pf i := by
  have pools := M.pools
  cases pf <;> simp only [Machine.frame, Machine.poolStart, kStart, pgSize] at * <;> omega

theorem frame_inj {pf pf' : PoolFlags} {i j : Nat} (hi : i < M.poolLen pf) (hj : j < M.poolLen pf')
    (h : M.frame pf i = M.frame pf' j) : pf = pf' ∧ i = j := by
  have pools := M.pools
  simp only [Machine.frame, pgSize] at h pools
  cases pf <;> cases pf' <;> simp only [Machine.poolStart, Machine.poolLen, kStart] at *
  · exact ⟨trivial, by omega⟩
  · omega
  · omega
  · exact ⟨trivial, by omega⟩

theorem Marked.ge {pf : PoolFlags} {f : Nat} (h : Marked M s pf f) : kStart ≤ f := by
  obtain ⟨i, _, rfl, _⟩ := h
  exact frame_ge pf i

theorem PageCore.table_ge {p i t : Nat} (core : PageCore M s) (h : Uses s (.table p i) t) :
    kStart ≤ t := by
  rcases core.marked _ _ h with hm | ⟨n, _, he, _⟩
  · exact hm.ge
  · cases he

theorem kernelTable_lt {i : Nat} (hi : i < 1023) : kernelTable i < kStart := by
  simp only [kernelTable, kStart, pgSize]
  omega

theorem kernelTable_inj {i j : Nat} (hi : 768 ≤ i) (hj : 768 ≤ j)
    (h : kernelTable i = kernelTable j) : i = j := by
  simp only [kernelTable, pgSize] at h
  omega

theorem Uses.fun {sl : Slot} {f g : Nat} (hf : Uses s sl f) (hg : Uses s sl g) : f = g := by
  rcases sl with ⟨_ | p, n⟩ | ⟨p, i⟩
  · exact congrArg Entry.addr (hf.2.2.symm.trans hg.2.2)
  · exact congrArg Entry.addr (hf.2.2.2.symm.trans hg.2.2.2)
  · exact congrArg Entry.addr (hf.2.2.symm.trans hg.2.2)

/-- The uses of frames are read off the tables alone. -/
theorem uses_congr {t : VM} (pde : t.pde = s.pde) (pte : t.pte = s.pte) {sl : Slot} {f : Nat} :
    Uses t sl f ↔ Uses s sl f := by
  rcases sl with ⟨_ | p, n⟩ | ⟨p, i⟩ <;> simp only [Uses, pde, pte]

/-! Where the entry of a page lies. -/

/-- The page can be mapped without another page table. -/
def Backed (s : VM) : Option Nat → Nat → Prop
  | none, n => 0xc0000 ≤ n ∧ n < 0xffc00
  | some p, n => 0 < p ∧ n < 0xc0000 ∧ (s.pde p (n / 1024)).present = true

def tableOf (s : VM) : Option Nat → Nat → Nat
  | none, n => kernelTable (n / 1024)
  | some p, n => (s.pde p (n / 1024)).addr

theorem uses_page {h : Option Nat} {n f : Nat} :
    Uses s (.page h n) f ↔ Backed s h n ∧ s.pte (tableOf s h n) (n % 1024) = ⟨f, true⟩ := by
  cases h <;> simp only [Uses, Backed, tableOf, and_assoc]

theorem PageCore.tableOf_inj {h h' : Option Nat} {n n' : Nat} (core : PageCore M s)
    (hb : Backed s h n) (hb' : Backed s h' n') (table : tableOf s h n = tableOf s h' n')
    (idx : n % 1024 = n' % 1024) : h = h' ∧ n = n' := by
  have used : ∀ p n, Backed s (some p) n → Uses s (.table p (n / 1024)) (tableOf s (some p) n) := by
    rintro p n ⟨hp, hn, pres⟩
    refine ⟨hp, by omega, ?_⟩
    cases he : s.pde p (n / 1024) with
    | mk addr present =>
      rw [he] at pres
      obtain rfl : present = true := pres
      simp [tableOf, he]
  cases h with
  | none =>
    cases h' with
    | none =>
      have := kernelTable_inj (by have := hb.1; omega) (by have := hb'.1; omega) table
      exact ⟨rfl, by omega⟩
    | some q =>
      have low : tableOf s none n < kStart := kernelTable_lt (by have := hb.2; omega)
      have high := core.table_ge (used q n' hb')
      omega
  | some p =>
    cases h' with
    | none =>
      have low : tableOf s none n' < kStart := kernelTable_lt (by have := hb'.2; omega)
      have high := core.table_ge (used p n hb)
      omega
    | some q =>
      have hu := used p n hb
      have hu' := used q n' hb'
      have big : 0x100000 ≤ tableOf s (some p) n := by
        have := core.table_ge hu
        simp only [kStart] at this
        omega
      have same := core.uniq _ _ _ hu (table ▸ hu') big
      simp only [Slot.table.injEq] at same
      obtain ⟨rfl, hi⟩ := same
      exact ⟨rfl, by omega⟩

theorem backed_setPte {h : Option Nat} {n a j : Nat} {e : Entry} :
    Backed (s.setPte a j e) h n ↔ Backed s h n := by
  cases h <;> rfl

theorem tableOf_setPte {h : Option Nat} {n a j : Nat} {e : Entry} :
    tableOf (s.setPte a j e) h n = tableOf s h n := by
  cases h <;> rfl

/-- Writing the entry of one page changes the use of that page only. -/
theorem PageCore.uses_setPte {h : Option Nat} {n f : Nat} {e : Entry} {x : Slot}
    (core : PageCore M s) (hb : Backed s h n) :
    Uses (s.setPte (tableOf s h n) (n % 1024) e) x f ↔
      (x = .page h n ∧ e = ⟨f, true⟩) ∨ (x ≠ .page h n ∧ Uses s x f) := by
  cases x with
  | table p i => simp [Uses, VM.setPte]
  | page h' n' =>
    rw [uses_page, uses_page, backed_setPte, tableOf_setPte]
    by_cases same : Slot.page h' n' = .page h n
    · cases same
      simp [VM.setPte, hb]
    · by_cases hb' : Backed s h' n'
      · have other : (s.setPte (tableOf s h n) (n % 1024) e).pte (tableOf s h' n') (n' % 1024) =
            s.pte (tableOf s h' n') (n' % 1024) := by
          by_cases table : tableOf s h' n' = tableOf s h n
          · have idx : n' % 1024 ≠ n % 1024 := by
              intro idx
              obtain ⟨rfl, rfl⟩ := core.tableOf_inj hb' hb table idx
              exact same rfl
            simp [VM.setPte, table, idx]
          · simp [VM.setPte, table]
        simp [other, same]
      · simp [same, hb']

/-- A new page table for the directory entry i of the process p. -/
theorem uses_newTable {p i t f : Nat} {x : Slot} (hp : 0 < p) (hi : i < 768)
    (absent : (s.pde p i).present ≠ true) (unused : ∀ sl, ¬ Uses s sl t) (ht : kStart ≤ t) :
    Uses ((s.setPde p i ⟨t, true⟩).clearTable t) x f ↔
      Uses s x f ∨ (x = .table p i ∧ f = t) := by
  have not_kernel : ∀ n < 0xffc00, kernelTable (n / 1024) ≠ t := by
    intro n hn he
    have := kernelTable_lt (i := n / 1024) (by omega)
    omega
  rcases x with ⟨_ | q, n⟩ | ⟨q, j⟩
  · constructor
    · rintro ⟨h1, h2, h3⟩
      refine Or.inl ⟨h1, h2, ?_⟩
      simpa [VM.clearTable, VM.setPde, not_kernel n h2] using h3
    · rintro (⟨h1, h2, h3⟩ | ⟨hn, -⟩)
      · refine ⟨h1, h2, ?_⟩
        simpa [VM.clearTable, VM.setPde, not_kernel n h2] using h3
      · cases hn
  · by_cases here : q = p ∧ n / 1024 = i
    · obtain ⟨rfl, rfl⟩ := here
      simp [Uses, VM.clearTable, VM.setPde, absent]
    · have pde : ((s.setPde p i ⟨t, true⟩).clearTable t).pde q (n / 1024) = s.pde q (n / 1024) := by
        by_cases hq : q = p
        · subst hq
          have hn : n / 1024 ≠ i := fun hn => here ⟨rfl, hn⟩
          simp [VM.clearTable, VM.setPde, hn]
        · simp [VM.clearTable, VM.setPde, hq]
      have table : 0 < q → n < 0xc0000 → (s.pde q (n / 1024)).present = true →
          (s.pde q (n / 1024)).addr ≠ t := by
        rintro h1 h2 h3 rfl
        refine unused (.table q (n / 1024)) ⟨h1, by omega, ?_⟩
        cases he : s.pde q (n / 1024) with
        | mk addr present =>
          rw [he] at h3
          simp only at h3
          rw [h3]
      simp only [Uses, pde, reduceCtorEq, false_and, or_false]
      constructor
      · rintro ⟨h1, h2, h3, h4⟩
        refine ⟨h1, h2, h3, ?_⟩
        simpa [VM.clearTable, VM.setPde, table h1 h2 h3] using h4
      · rintro ⟨h1, h2, h3, h4⟩
        refine ⟨h1, h2, h3, ?_⟩
        simpa [VM.clearTable, VM.setPde, table h1 h2 h3] using h4
  · by_cases here : q = p ∧ j = i
    · obtain ⟨rfl, rfl⟩ := here
      have none_before : ∀ g, s.pde q j ≠ ⟨g, true⟩ := by
        intro g he
        rw [he] at absent
        exact absent rfl
      simp [Uses, VM.clearTable, VM.setPde, hp, hi, none_before, eq_comm]
    · have pde : ((s.setPde p i ⟨t, true⟩).clearTable t).pde q j = s.pde q j := by
        by_cases hq : q = p
        · subst hq
          have hj : j ≠ i := fun hj => here ⟨rfl, hj⟩
          simp [VM.clearTable, VM.setPde, hj]
        · simp [VM.clearTable, VM.setPde, hq]
      have ne : Slot.table q j ≠ .table p i := by
        intro he
        cases he
        exact here ⟨rfl, rfl⟩
      simp only [Uses, pde, ne, false_and, or_false]

end Zhenxiang.Paging
