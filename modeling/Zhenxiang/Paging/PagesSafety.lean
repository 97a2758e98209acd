import Zhenxiang.Paging.PagesInvariant

/-! The allocator calls keep every frame to one use, as long as page_table_add finds a
frame for each page table it has to make. -/
namespace Zhenxiang.Paging
open Lib Kernel

variable {M : Machine} {s t : VM}

/-- The bitmaps of virtual pages, and the ranges handed out, are untouched. -/
def SameVirt (s t : VM) : Prop :=
  t.kernelVaddr = s.kernelVaddr ∧ t.userVaddr = s.userVaddr ∧ t.runs = s.runs

theorem SameVirt.trans {u : VM} (h : SameVirt s t) (k : SameVirt t u) : SameVirt s u :=
  ⟨k.1.trans h.1, k.2.1.trans h.2.1, k.2.2.trans h.2.2⟩

theorem SameVirt.reserved (h : SameVirt s t) {a : Option Nat} {n : Nat} :
    Reserved M t a n ↔ Reserved M s a n := by
  cases a <;> simp only [Reserved, VM.vaddrBit, h.1, h.2.1]

/-- What a call that maps pages adds: uses of new slots, and of new page tables. -/
structure Extends (s t : VM) (new : Slot → Prop) : Prop where
  virt : SameVirt s t
  kept : ∀ sl f, Uses s sl f → Uses t sl f
  only : ∀ sl f, Uses t sl f → Uses s sl f ∨ new sl ∨ ∃ p i, sl = .table p i

theorem Extends.trans {u : VM} {new new' : Slot → Prop} (h : Extends s t new)
    (k : Extends t u new') : Extends s u fun sl => new sl ∨ new' sl where
  virt := h.virt.trans k.virt
  kept sl f hf := k.kept sl f (h.kept sl f hf)
  only sl f hf := by
    rcases k.only sl f hf with hf | hf | hf
    · rcases h.only sl f hf with hf | hf | hf
      · exact Or.inl hf
      · exact Or.inr (Or.inl (Or.inl hf))
      · exact Or.inr (Or.inr hf)
    · exact Or.inr (Or.inl (Or.inr hf))
    · exact Or.inr (Or.inr hf)

theorem Extends.mono {new new' : Slot → Prop} (h : Extends s t new) (imp : ∀ sl, new sl → new' sl) :
    Extends s t new' where
  virt := h.virt
  kept := h.kept
  only sl f hf := by
    rcases h.only sl f hf with hf | hf | hf
    · exact Or.inl hf
    · exact Or.inr (Or.inl (imp sl hf))
    · exact Or.inr (Or.inr hf)

/-- One more use of a frame that had none. -/
theorem PageCore.add {x : Slot} {f : Nat} (core : PageCore M s)
    (pde : ∀ p i, 768 ≤ i → t.pde p i = s.pde p i) (virt : SameVirt s t)
    (marks : ∀ pf g, Marked M s pf g → Marked M t pf g)
    (uses : ∀ sl g, Uses t sl g → Uses s sl g ∨ (sl = x ∧ g = f))
    (marked : Marked M t (poolOf x) f) (unused : ∀ sl, ¬ Uses s sl f)
    (reserved : ∀ h n, x = .page h n → Reserved M s h n) : PageCore M t where
  kernel_pde p i hi hi' := by rw [pde p i hi]; exact core.kernel_pde p i hi hi'
  marked sl g hg := by
    rcases uses sl g hg with hg | ⟨rfl, rfl⟩
    · rcases core.marked sl g hg with hm | hl
      · exact Or.inl (marks _ _ hm)
      · exact Or.inr hl
    · exact Or.inl marked
  uniq a b g ha hb hg := by
    rcases uses a g ha with ha | ⟨rfl, rfl⟩ <;> rcases uses b g hb with hb | ⟨rfl, hgf⟩
    · exact core.uniq a b g ha hb hg
    · exact (unused a (hgf ▸ ha)).elim
    · exact (unused b hb).elim
    · rfl
  reserved h n g hg := by
    rcases uses _ g hg with hg | ⟨he, -⟩
    · rcases core.reserved h n g hg with hr | hl
      · exact Or.inl (virt.reserved.2 hr)
      · exact Or.inr hl
    · exact Or.inl (virt.reserved.2 (reserved h n he.symm))

theorem marked_setPool {pf : PoolFlags} {i : Nat} {pf' : PoolFlags} {g : Nat}
    (h : Marked M s pf' g) : Marked M (s.setPool pf i true) pf' g := by
  obtain ⟨j, hj, rfl, hbit⟩ := h
  refine ⟨j, hj, rfl, ?_⟩
  cases pf <;> cases pf' <;>
    simp only [VM.poolBit, VM.setPool, setBits] at * <;>
    first
      | exact hbit
      | (split <;> first | rfl | exact hbit)

/-- palloc hands out a frame nobody uses. -/
theorem palloc_spec (core : PageCore M s) (pf : PoolFlags) :
    Succeeds (palloc M pf) (fun r t => (r = none ∧ t = s ∧ M.scanPool s pf = none) ∨
      ∃ f, r = some f ∧ PageCore M t ∧ Marked M t pf f ∧ (∀ sl, ¬ Uses t sl f) ∧ SameVirt s t ∧
        t.pde = s.pde ∧ t.pte = s.pte ∧ (pf = .user → t.kernelPool = s.kernelPool) ∧
        ∀ pf' g, Marked M s pf' g → Marked M t pf' g) s := by
  simp only [palloc, Succeeds, wp_bind, wp_get]
  cases hs : M.scanPool s pf with
  | none => exact (wp_pure _).2 (Or.inl ⟨rfl, rfl, rfl⟩)
  | some i =>
    have found : i < M.poolLen pf ∧ s.poolBit pf i = false := by
      cases pf with
      | kernel =>
        obtain ⟨hi, hb⟩ := M.scan_ok _ _ _ _ hs
        exact ⟨by simpa [Machine.poolLen] using hi, hb 0 (by decide)⟩
      | user =>
        obtain ⟨hi, hb⟩ := M.scan_ok _ _ _ _ hs
        exact ⟨by simpa [Machine.poolLen] using hi, hb 0 (by decide)⟩
    have virt : SameVirt s (s.setPool pf i true) := by cases pf <;> exact ⟨rfl, rfl, rfl⟩
    have pde : (s.setPool pf i true).pde = s.pde := by cases pf <;> rfl
    have pte : (s.setPool pf i true).pte = s.pte := by cases pf <;> rfl
    have uses : ∀ sl g, Uses (s.setPool pf i true) sl g ↔ Uses s sl g :=
      fun sl g => uses_congr pde pte
    have unused : ∀ sl, ¬ Uses s sl (M.frame pf i) := by
      intro sl hsl
      rcases core.marked sl _ hsl with ⟨j, hj, he, hbit⟩ | ⟨n, -, -, hlow⟩
      · obtain ⟨rfl, rfl⟩ := frame_inj found.1 hj he
        rw [found.2] at hbit
        cases hbit
      · have := frame_ge (M := M) pf i
        simp only [kStart] at this
        omega
    have bit : (s.setPool pf i true).poolBit pf i = true := by
      cases pf <;> simp [VM.setPool, VM.poolBit, setBits]
    simp only [wp_bind, wp_modify, wp_pure]
    refine Or.inr ⟨M.frame pf i, rfl, ⟨?_, ?_, ?_, ?_⟩, ⟨i, found.1, rfl, bit⟩, ?_, virt, pde, pte,
      ?_, fun pf' g => marked_setPool⟩
    · rw [pde]; exact core.kernel_pde
    · intro sl g hg
      rcases core.marked sl g ((uses sl g).1 hg) with hm | hl
      · exact Or.inl (marked_setPool hm)
      · exact Or.inr hl
    · intro a b g ha hb
      exact core.uniq a b g ((uses a g).1 ha) ((uses b g).1 hb)
    · intro h n g hg
      rcases core.reserved h n g ((uses _ g).1 hg) with hr | hl
      · exact Or.inl (virt.reserved.2 hr)
      · exact Or.inr hl
    · exact fun sl hsl => unused sl ((uses sl _).1 hsl)
    · rintro rfl; rfl

/-- A reserved page lies in the part of its half that page tables can map. -/
theorem Reserved.bounds {p n : Nat} {pf : PoolFlags} (h : Reserved M s (half p pf) n) :
    (pf = .kernel ∧ 0xc0100 ≤ n ∧ n < 0xffc00) ∨ (pf = .user ∧ 0 < p ∧ n < 0xc0000) := by
  have small := M.kLen_small
  obtain ⟨range, -⟩ := h
  cases pf with
  | kernel =>
    left
    simp only [half, InVaddr, kHeapStart, pgSize] at *
    exact ⟨trivial, by omega⟩
  | user =>
    right
    simp only [half, InVaddr, userVaddrStart, userVaddrLen, pgSize] at *
    split at range
    · omega
    · exact ⟨trivial, by omega, by omega⟩

/-- The directory entry is there, or bitmap_scan finds a frame for its page table. -/
def TableFound (M : Machine) (s : VM) (p vaddr : Nat) : Prop :=
  (s.pde p (pdeIdx vaddr)).present = true ∨ M.scanPool s .kernel ≠ none

theorem pageTableAdd_spec {pf : PoolFlags} {p n off f : Nat} (core : PageCore M s)
    (ho : off < pgSize) (res : Reserved M s (half p pf) n) (marked : Marked M s pf f)
    (unused : ∀ sl, ¬ Uses s sl f) (free : ∀ g, ¬ Uses s (.page (half p pf) n) g)
    (table : TableFound M s p (n * pgSize + off)) :
    Succeeds (pageTableAdd M p (n * pgSize + off) f) (fun _ t => PageCore M t ∧
      Extends s t (fun sl => sl = .page (half p pf) n) ∧ Uses t (.page (half p pf) n) f) s := by
  have pool : poolOf (.page (half p pf) n) = pf := by cases pf <;> rfl
  have bounds := res.bounds
  simp only [pageTableAdd, Succeeds, wp_bind, wp_get, wp_ite, wp_assert, wp_modify,
    pdeIdx_page ho, pteIdx_page ho]
  constructor
  · intro pres
    have backed : Backed s (half p pf) n := by
      rcases bounds with ⟨rfl, h1, h2⟩ | ⟨rfl, h1, h2⟩
      · exact ⟨by omega, h2⟩
      · exact ⟨h1, h2, pres⟩
    have addr : (s.pde p (n / 1024)).addr = tableOf s (half p pf) n := by
      rcases bounds with ⟨rfl, h1, h2⟩ | ⟨rfl, h1, h2⟩
      · rw [core.kernel_pde p (n / 1024) (by omega) (by omega)]
        rfl
      · rfl
    rw [addr]
    have absent : (s.pte (tableOf s (half p pf) n) (n % 1024)).present = false := by
      cases he : s.pte (tableOf s (half p pf) n) (n % 1024) with
      | mk a present =>
        cases present with
        | false => rfl
        | true => exact (free a (uses_page.2 ⟨backed, he⟩)).elim
    refine ⟨fun _ => ?_, fun hn => hn absent⟩
    have uses := fun sl g => core.uses_setPte (x := sl) (f := g) (e := ⟨f, true⟩) backed
    have virt : SameVirt s (s.setPte (tableOf s (half p pf) n) (n % 1024) ⟨f, true⟩) :=
      ⟨rfl, rfl, rfl⟩
    refine ⟨?_, ⟨virt, ?_, ?_⟩, (uses _ f).2 (Or.inl ⟨rfl, rfl⟩)⟩
    · refine core.add (x := .page (half p pf) n) (f := f) (fun _ _ _ => rfl) virt
        (fun pf' g hg => ?_) ?_ ?_ unused ?_
      · obtain ⟨i, hi, he, hb⟩ := hg
        exact ⟨i, hi, he, by cases pf' <;> exact hb⟩
      · intro sl g hg
        rcases (uses sl g).1 hg with ⟨hsl, he⟩ | ⟨-, hg⟩
        · exact Or.inr ⟨hsl, by cases he; rfl⟩
        · exact Or.inl hg
      · rw [pool]
        obtain ⟨i, hi, he, hb⟩ := marked
        exact ⟨i, hi, he, by cases pf <;> exact hb⟩
      · rintro h m he
        cases he
        exact res
    · intro sl g hg
      refine (uses sl g).2 (Or.inr ⟨?_, hg⟩)
      rintro rfl
      exact free g hg
    · intro sl g hg
      rcases (uses sl g).1 hg with ⟨hsl, -⟩ | ⟨-, hg⟩
      · exact Or.inr (Or.inl hsl)
      · exact Or.inl hg
  · intro absent
    -- only a process can lack a page table
    obtain ⟨rfl, hp, hn⟩ : pf = .user ∧ 0 < p ∧ n < 0xc0000 := by
      rcases bounds with ⟨rfl, h1, h2⟩ | h
      · rw [core.kernel_pde p (n / 1024) (by omega) (by omega)] at absent
        exact (absent rfl).elim
      · exact h
    have found : M.scanPool s .kernel ≠ none := by
      rcases table with hpres | h
      · rw [pdeIdx_page ho] at hpres
        exact (absent hpres).elim
      · exact h
    refine wp_post (palloc_spec core .kernel) ?_
    rintro r u (⟨-, -, hnone⟩ | ⟨tbl, rfl, core', marked', unused', virt, pde, pte, -, marks⟩)
    · exact (found hnone).elim
    have absent' : (u.pde p (n / 1024)).present ≠ true := by rw [pde]; exact absent
    have new := fun sl g => uses_newTable (s := u) (x := sl) (f := g) hp (i := n / 1024)
      (by omega) absent' unused' marked'.ge
    let v := (u.setPde p (n / 1024) ⟨tbl, true⟩).clearTable tbl
    have cleared : (v.pte tbl (n % 1024)).present = false := by
      simp [v, VM.clearTable]
    have virt' : SameVirt u v := ⟨rfl, rfl, rfl⟩
    have core'' : PageCore M v := by
      refine core'.add (x := .table p (n / 1024)) (f := tbl) ?_ virt' (fun pf' g hg => ?_)
        (fun sl g hg => (new sl g).1 hg) ?_ unused' ?_
      · intro q i hi
        by_cases hq : q = p
        · subst hq
          have hne : i ≠ n / 1024 := by omega
          simp [v, VM.clearTable, VM.setPde, hne]
        · simp [v, VM.clearTable, VM.setPde, hq]
      · obtain ⟨i, hi, he, hb⟩ := hg
        exact ⟨i, hi, he, by cases pf' <;> exact hb⟩
      · obtain ⟨i, hi, he, hb⟩ := marked'
        exact ⟨i, hi, he, hb⟩
      · rintro h m he
        cases he
    have backed : Backed v (some p) n := ⟨hp, hn, by simp [v, VM.clearTable, VM.setPde]⟩
    have addr : tableOf v (some p) n = tbl := by simp [tableOf, v, VM.clearTable, VM.setPde]
    have uses := fun sl g => core''.uses_setPte (x := sl) (f := g) (e := ⟨f, true⟩) backed
    rw [addr] at uses
    have unused_f : ∀ sl, ¬ Uses v sl f := by
      intro sl hsl
      rcases (new sl f).1 hsl with hu | ⟨-, rfl⟩
      · exact unused sl ((uses_congr pde pte).1 hu)
      · -- the frame for the page is one of the user pool
        obtain ⟨i, hi, he, -⟩ := marked
        obtain ⟨j, hj, he', -⟩ := marked'
        have := (frame_inj hi hj (he.symm.trans he')).1
        cases this
    have free' : ∀ g, ¬ Uses v (.page (some p) n) g := by
      intro g hg
      rcases (new _ g).1 hg with hu | ⟨he, -⟩
      · exact free g ((uses_congr pde pte).1 hu)
      · cases he
    refine ⟨fun _ => ?_, fun hn => hn cleared⟩
    have total : SameVirt s (v.setPte tbl (n % 1024) ⟨f, true⟩) := virt.trans ⟨rfl, rfl, rfl⟩
    refine ⟨?_, ⟨total, ?_, ?_⟩, (uses _ f).2 (Or.inl ⟨rfl, rfl⟩)⟩
    · refine core''.add (t := v.setPte tbl (n % 1024) ⟨f, true⟩) (x := .page (some p) n) (f := f)
        (fun _ _ _ => rfl) ⟨rfl, rfl, rfl⟩ (fun pf' g hg => ?_) ?_ ?_ unused_f ?_
      · obtain ⟨i, hi, he, hb⟩ := hg
        exact ⟨i, hi, he, by cases pf' <;> exact hb⟩
      · intro sl g hg
        rcases (uses sl g).1 hg with ⟨hsl, he⟩ | ⟨-, hg⟩
        · exact Or.inr ⟨hsl, by cases he; rfl⟩
        · exact Or.inl hg
      · obtain ⟨i, hi, he, hb⟩ := marks _ _ marked
        exact ⟨i, hi, he, hb⟩
      · rintro h m he
        cases he
        exact virt'.reserved.2 (virt.reserved.2 res)
    · intro sl g hg
      refine (uses sl g).2 (Or.inr ⟨?_, (new sl g).2 (Or.inl ((uses_congr pde pte).2 hg))⟩)
      rintro rfl
      exact free g hg
    · intro sl g hg
      rcases (uses sl g).1 hg with ⟨hsl, -⟩ | ⟨-, hg⟩
      · exact Or.inr (Or.inl hsl)
      · rcases (new sl g).1 hg with hu | ⟨hsl, -⟩
        · exact Or.inl ((uses_congr pde pte).1 hu)
        · exact Or.inr (Or.inr ⟨_, _, hsl⟩)

/-- While the loop of malloc_page runs, page_table_add finds a frame for each page table
that is missing. -/
def TablesFound (M : Machine) (pf : PoolFlags) (p : Nat) : Nat → Nat → VM → Prop
  | 0, _, _ => True
  | n + 1, vaddr, s => ∀ f t, palloc M pf s = .ok (some f, t) →
      TableFound M t p vaddr ∧ ∀ u, pageTableAdd M p vaddr f t = .ok ((), u) →
        TablesFound M pf p n (vaddr + pgSize) u

theorem Extends.unused {new : Slot → Prop} {h : Option Nat} {n : Nat} (ext : Extends s t new)
    (free : ∀ g, ¬ Uses s (.page h n) g) (old : ¬ new (.page h n)) (g : Nat) :
    ¬ Uses t (.page h n) g := by
  intro hg
  rcases ext.only _ g hg with hg | hn | ⟨p, i, he⟩
  · exact free g hg
  · exact old hn
  · cases he

theorem mapPages_spec {pf : PoolFlags} {p : Nat} (cnt : Nat) :
    ∀ n s, PageCore M s → (∀ k < cnt, Reserved M s (half p pf) (n + k)) →
      (∀ k < cnt, ∀ g, ¬ Uses s (.page (half p pf) (n + k)) g) →
      TablesFound M pf p cnt (n * pgSize) s →
      Succeeds (mapPages M pf p cnt (n * pgSize)) (fun r t => PageCore M t ∧
        Extends s t (fun sl => ∃ k < cnt, sl = .page (half p pf) (n + k)) ∧
        (r = true → ∀ k < cnt, ∃ f, Uses t (.page (half p pf) (n + k)) f)) s := by
  induction cnt with
  | zero =>
    intro n s core _ _ _
    exact (wp_pure _).2
      ⟨core, ⟨⟨rfl, rfl, rfl⟩, fun _ _ h => h, fun _ _ h => Or.inl h⟩, fun _ k hk => by omega⟩
  | succ cnt ih =>
    intro n s core res free found
    obtain ⟨r, t, run, post⟩ := succeeds_iff.1 (palloc_spec core pf)
    simp only [mapPages, Succeeds, wp_bind]
    rw [wp_of_ok run]
    rcases post with ⟨rfl, rfl, -⟩ | ⟨f, rfl, core', marked, unused, virt, pde, pte, -, -⟩
    · exact (wp_pure _).2
        ⟨core, ⟨⟨rfl, rfl, rfl⟩, fun _ _ h => h, fun _ _ h => Or.inl h⟩, fun h => by cases h⟩
    have uses : ∀ sl g, Uses t sl g ↔ Uses s sl g := fun sl g => uses_congr pde pte
    have ext₁ : Extends s t fun _ => False :=
      ⟨virt, fun sl g hg => (uses sl g).2 hg, fun sl g hg => Or.inl ((uses sl g).1 hg)⟩
    obtain ⟨table, rest⟩ := found f t run
    have here : Reserved M t (half p pf) n := virt.reserved.2 (res 0 (by omega))
    have free₁ : ∀ g, ¬ Uses t (.page (half p pf) n) g := ext₁.unused (free 0 (by omega)) id
    rw [← Nat.add_zero (n * pgSize)] at table
    have add := pageTableAdd_spec core' (by decide) here marked unused free₁ table
    rw [Nat.add_zero] at add
    obtain ⟨_, u, run', core'', ext₂, mapped⟩ := succeeds_iff.1 add
    have ext := ext₁.trans ext₂
    simp only [wp_bind]
    rw [wp_of_ok run']
    have step : n * pgSize + pgSize = (n + 1) * pgSize := by rw [Nat.succ_mul]
    rw [step]
    have next : ∀ k, n + 1 + k = n + (k + 1) := fun k => by omega
    refine wp_post (ih (n + 1) u core'' ?_ ?_ (step ▸ rest u run')) ?_
    · intro k hk
      rw [next]
      exact ext.virt.reserved.2 (res (k + 1) (by omega))
    · intro k hk
      rw [next]
      refine ext.unused (free (k + 1) (by omega)) ?_
      rintro (h | h)
      · exact h
      · simp only [Slot.page.injEq] at h
        omega
    · rintro r v ⟨core₃, ext₃, all⟩
      refine ⟨core₃, (ext.trans ext₃).mono ?_, ?_⟩
      · rintro sl ((h | rfl) | ⟨k, hk, rfl⟩)
        · exact h.elim
        · exact ⟨0, by omega, rfl⟩
        · exact ⟨k + 1, by omega, by rw [next]⟩
      · intro hr k hk
        cases k with
        | zero => exact ⟨f, ext₃.kept _ _ mapped⟩
        | succ k =>
          rw [← next]
          exact all hr k (by omega)

end Zhenxiang.Paging
