import Zhenxiang.Paging.Spaces

/-! Taking pages, and copying between pages of an address space. -/
namespace Zhenxiang.Paging
open Lib Kernel

section Frames
variable {M : Machine} {s t : VM} {pf : PoolFlags} {p n : Nat}

theorem free_setPool_card {i : Nat} (mem : i ∈ s.free M pf) :
    ((s.setPool pf i true).free M pf).card + 1 = (s.free M pf).card ∧
      ∀ pf', pf' ≠ pf → (s.setPool pf i true).free M pf' = s.free M pf' := by
  refine ⟨by rw [free_setPool, Finset.card_erase_add_one mem], fun pf' other => free_congr ?_⟩
  funext j
  rw [poolBit_setPool, if_neg other]

/-- A reserved page of the kernel lies in the kernel's half. -/
theorem Reserved.kernel_bounds {n : Nat} (h : Reserved M s none n) : 0xc0100 ≤ n ∧ n < 0xffc00 := by
  rcases Reserved.bounds (show Reserved M s (half 0 .kernel) n from h) with ⟨-, inside⟩ | ⟨no, -⟩
  · exact inside
  · cases no

/-- A frame that is there is taken, and no one uses it. -/
theorem palloc_takes (complete : M.Complete) (core : PageCore M s) (room : 0 < (s.free M pf).card) :
    Succeeds (palloc M pf) (fun r t => ∃ f, r = some f ∧ PageCore M t ∧ Marked M t pf f ∧
      (∀ sl, ¬ Uses t sl f) ∧ SameVirt s t ∧ t.pde = s.pde ∧ t.pte = s.pte ∧
      (t.free M pf).card + 1 = (s.free M pf).card ∧ ∀ pf', pf' ≠ pf → t.free M pf' = s.free M pf') s := by
  refine wp_post (wp_and (palloc_exact complete pf) (palloc_spec core pf)) ?_
  rintro r t ⟨⟨-, -, empty⟩ | ⟨i, mem, hr, ht⟩, other⟩
  · rw [empty, Finset.card_empty] at room
    cases room
  rcases other with ⟨none, -⟩ | ⟨f, rfl, core', marked, unused, virt, pde, pte, -⟩
  · rw [hr] at none
    cases none
  · have counts := free_setPool_card mem
    rw [← ht] at counts
    exact ⟨f, rfl, core', marked, unused, virt, pde, pte, counts⟩

/-- What page_table_add may do to the directories and the frames that are free. -/
structure TableAdded (M : Machine) (s t : VM) (p c : Nat) : Prop where
  others : ∀ q i, (q = p → i ≠ c) → t.pde q i = s.pde q i
  kernel : (s.pde p c).present = true ∧ t.pde = s.pde ∧ t.free M .kernel = s.free M .kernel ∨
    (s.pde p c).present = false ∧ (t.pde p c).present = true ∧
      (s.free M .kernel).card ≤ (t.free M .kernel).card + 1

theorem pageTableAdd_tables (complete : M.Complete) {vaddr f : Nat} :
    Returns (pageTableAdd M p vaddr f) (fun _ t => TableAdded M s t p (pdeIdx vaddr) ∧ t.free M .user = s.free M .user)
      s := by
  have new (u : VM) (T : Nat) (pde : u.pde = s.pde)
      (kernel : (s.free M .kernel).card ≤ (u.free M .kernel).card + 1)
      (absent : (s.pde p (pdeIdx vaddr)).present = false) :
      TableAdded M s (((u.setPde p (pdeIdx vaddr) ⟨T, true⟩).clearTable T).setPte T (pteIdx vaddr) ⟨f, true⟩)
        p (pdeIdx vaddr) := by
    refine ⟨fun q i other => ?_, .inr ⟨absent, ?_, kernel⟩⟩
    · dsimp only [VM.setPte, VM.clearTable, VM.setPde]
      rw [Function.update_apply]
      split
      · next same =>
        rw [Function.update_of_ne (other same), pde, same]
      · rw [pde]
    · dsimp only [VM.setPte, VM.clearTable, VM.setPde]
      rw [Function.update_self, Function.update_self]
  rw [pageTableAdd, Returns, wp_bind, wp_get]
  dsimp only
  rw [wp_ite]
  refine ⟨fun there => ?_, fun absent => ?_⟩
  · rw [wp_bind, wp_get, wp_bind, wp_assert]
    refine ⟨fun _ => ?_, fun _ => trivial⟩
    rw [wp_modify]
    exact ⟨⟨fun _ _ _ => rfl, .inl ⟨there, rfl, rfl⟩⟩, rfl⟩
  · rw [Bool.not_eq_true] at absent
    rw [wp_bind]
    refine wp_mono (palloc_exact complete .kernel) ?_ fun _ no => no.elim
    have rest (u : VM) (T : Nat) (user : u.free M .user = s.free M .user)
        (added : TableAdded M s (((u.setPde p (pdeIdx vaddr) ⟨T, true⟩).clearTable T).setPte
          T (pteIdx vaddr) ⟨f, true⟩) p (pdeIdx vaddr)) :
        wp (do
            modify fun s => s.setPde p (pdeIdx vaddr) ⟨T, true⟩
            modify fun s => s.clearTable T
            assert (((← get).pte T (pteIdx vaddr)).present = false)
            modify fun s => s.setPte T (pteIdx vaddr) ⟨f, true⟩)
          (fun _ t => TableAdded M s t p (pdeIdx vaddr) ∧ t.free M .user = s.free M .user) (fun _ => True) u := by
      rw [wp_bind, wp_modify, wp_bind, wp_modify, wp_bind, wp_get, wp_bind, wp_assert]
      refine ⟨fun _ => ?_, fun _ => trivial⟩
      rw [wp_modify]
      exact ⟨added, user⟩
    rintro r u (⟨rfl, rfl, -⟩ | ⟨i, mem, rfl, rfl⟩)
    · exact rest u 0 rfl (new u 0 rfl (Nat.le_succ _) absent)
    · obtain ⟨fewer, others⟩ := free_setPool_card mem
      exact rest _ _ (others .user (by decide)) (new _ _ rfl (by omega) absent)

theorem scanPool_found (complete : M.Complete) (room : 0 < (s.free M pf).card) : M.scanPool s pf ≠ none := by
  intro none
  obtain ⟨i, mem⟩ := Finset.card_pos.1 room
  obtain ⟨low, clear⟩ := mem_free.1 mem
  have scan : M.scan (s.poolBit pf) (M.poolLen pf) 1 = .none := by cases pf <;> exact none
  rw [complete _ _ scan i low] at clear
  cases clear

/-- The variant of get_a_page for fork, with frames left for the page and a table. -/
theorem forkPage_takes (complete : M.Complete) (core : PageCore M s) (res : Reserved M s (some p) n)
    (free : ∀ g, ¬ Uses s (.page (some p) n) g) (room : 0 < (s.free M .user).card)
    (table : (s.pde p (n / 1024)).present = true ∨ 0 < (s.free M .kernel).card) :
    Succeeds (getAPageWithoutOpvaddrbitmap M .user p (n * pgSize)) (fun _ t => PageCore M t ∧
      Extends s t (fun sl => sl = .page (some p) n) ∧ (∃ f, Uses t (.page (some p) n) f) ∧
      (t.free M .user).card + 1 = (s.free M .user).card ∧ TableAdded M s t p (n / 1024)) s := by
  rw [getAPageWithoutOpvaddrbitmap, Succeeds, wp_bind]
  refine wp_post (palloc_takes complete core room) ?_
  rintro r u ⟨f, rfl, core', marked, unused, virt, pde, pte, fewer, others⟩
  have uses (sl : Slot) (g : Nat) : Uses u sl g ↔ Uses s sl g := uses_congr pde pte
  have ext : Extends s u fun _ => False :=
    ⟨virt, fun sl g hg => (uses sl g).2 hg, fun sl g hg => .inl ((uses sl g).1 hg)⟩
  have page : pdeIdx (n * pgSize) = n / 1024 := by
    rw [← Nat.add_zero (n * pgSize), pdeIdx_page (by decide)]
  have found : TableFound M u p (n * pgSize + 0) := by
    rw [TableFound, Nat.add_zero, page, pde]
    exact table.imp_right fun left => scanPool_found complete (by rwa [others .kernel (by decide)])
  have add := pageTableAdd_spec core' (by decide) (show Reserved M _ (half _ .user) _ from virt.reserved.2 res) marked unused
    (ext.unused free id) found
  rw [Nat.add_zero] at add
  dsimp only
  rw [wp_bind]
  refine wp_post (add.and_returns (pageTableAdd_tables complete)) ?_
  rintro _ t ⟨⟨core'', ext', mapped⟩, tables, user⟩
  rw [wp_pure]
  rw [page] at tables
  refine ⟨core'', (ext.trans ext').mono ?_, ⟨f, mapped⟩, by rw [user, fewer], ?_⟩
  · rintro sl (no | new)
    · exact no.elim
    · exact new
  · obtain ⟨same, kernel⟩ := tables
    rw [pde, others .kernel (by decide)] at kernel
    exact ⟨fun q i other => by rw [same q i other, pde], kernel⟩

/-- cnt kernel pages from n on have been mapped, and nothing else. -/
structure Mapped (M : Machine) (s t : VM) (n cnt : Nat) : Prop where
  core : PageCore M t
  virt : SameVirt s t
  pde : t.pde = s.pde
  pages : ∀ k < cnt, ∃ f, Uses t (.page none (n + k)) f
  kept : ∀ sl f, Uses s sl f → Uses t sl f
  only : ∀ sl f, Uses t sl f → Uses s sl f ∨ ∃ k < cnt, sl = .page none (n + k)
  frames : (s.free M .kernel).card = (t.free M .kernel).card + cnt
  user : t.free M .user = s.free M .user

/-- The loop of malloc_page for pages of the kernel, when there are frames. -/
theorem mapPages_kernel (complete : M.Complete) (cnt : Nat) : ∀ n s, PageCore M s →
    (∀ k < cnt, Reserved M s none (n + k)) → (∀ k < cnt, ∀ g, ¬ Uses s (.page none (n + k)) g) →
    cnt ≤ (s.free M .kernel).card →
    Succeeds (mapPages M .kernel p cnt (n * pgSize)) (fun r t => r = true ∧ Mapped M s t n cnt) s := by
  induction cnt with
  | zero =>
    intro n s core _ _ _
    exact (wp_pure _).2 ⟨rfl, core, ⟨rfl, rfl, rfl⟩, rfl, fun _ none => absurd none (Nat.not_lt_zero _),
      fun _ _ h => h, fun _ _ h => .inl h, rfl, rfl⟩
  | succ cnt ih =>
    intro n s core res free room
    rw [mapPages, Succeeds, wp_bind]
    refine wp_post (palloc_takes complete core (show 0 < (s.free M .kernel).card by omega)) ?_
    rintro r u ⟨f, rfl, core', marked, unused, virt, pde, pte, fewer, others⟩
    have uses (sl : Slot) (g : Nat) : Uses u sl g ↔ Uses s sl g := uses_congr pde pte
    have here : Reserved M u none n := virt.reserved.2 (res 0 (by omega))
    have bounds := here.kernel_bounds
    have page : pdeIdx (n * pgSize) = n / 1024 := by
      rw [← Nat.add_zero (n * pgSize), pdeIdx_page (by decide)]
    have there : (u.pde p (n / 1024)).present = true := by
      rw [core'.kernel_pde p (n / 1024) (by omega) (by omega)]
    have found : TableFound M u p (n * pgSize + 0) := .inl (by rw [Nat.add_zero, page]; exact there)
    have add := pageTableAdd_spec core' (by decide) (show Reserved M u (half p .kernel) n from here) marked unused
      (fun g hg => free 0 (by omega) g ((uses _ g).1 hg)) found
    rw [Nat.add_zero] at add
    dsimp only
    rw [wp_bind]
    refine wp_post (add.and_returns (pageTableAdd_tables complete)) ?_
    rintro _ v ⟨⟨core'', ext, mapped⟩, tables, user⟩
    obtain ⟨-, pde', kernel⟩ | ⟨absent, -⟩ := page ▸ tables.kernel
    · have next (k : Nat) : n + 1 + k = n + (k + 1) := by omega
      have old {sl : Slot} {g : Nat} (hg : Uses v sl g) : Uses s sl g ∨ sl = .page none n := by
        rcases ext.only sl g hg with hg | new | ⟨q, i, rfl⟩
        · exact .inl ((uses sl g).1 hg)
        · exact .inr new
        · obtain ⟨process, low, entry⟩ := hg
          exact .inl ⟨process, low, by rw [← pde, ← pde']; exact entry⟩
      rw [← Nat.succ_mul]
      refine wp_post (ih (n + 1) v core'' ?_ ?_ ?_) ?_
      · intro k hk
        rw [next]
        exact ext.virt.reserved.2 (virt.reserved.2 (res (k + 1) (by omega)))
      · intro k hk g hg
        rw [next] at hg
        rcases old hg with hg | same
        · exact free (k + 1) (by omega) g hg
        · simp only [Slot.page.injEq] at same
          omega
      · rw [kernel]
        omega
      · rintro r t ⟨rfl, done⟩
        refine ⟨rfl, done.core, virt.trans (ext.virt.trans done.virt), done.pde.trans (pde'.trans pde), ?_, ?_, ?_, ?_, ?_⟩
        · rintro (_ | k) hk
          · exact ⟨f, done.kept _ _ mapped⟩
          · rw [← next]
            exact done.pages k (by omega)
        · exact fun sl g hg => done.kept sl g (ext.kept sl g ((uses sl g).2 hg))
        · intro sl g hg
          rcases done.only sl g hg with hg | ⟨k, hk, rfl⟩
          · exact (old hg).imp_right fun same => ⟨0, by omega, same⟩
          · exact .inr ⟨k + 1, by omega, by rw [next]⟩
        · have frames := done.frames
          rw [kernel] at frames
          omega
        · rw [done.user, user, others .user (by decide)]
    · rw [there] at absent
      cases absent

/-- malloc_page for pages of the kernel, when bitmap_scan finds them and there are frames. -/
theorem mallocPage_kernel (complete : M.Complete) (core : PageCore M s) {i cnt : Nat}
    (found : M.scan s.kernelVaddr M.kLen cnt = some i) (pos : 0 < cnt) (small : cnt < 3840)
    (room : cnt ≤ (s.free M .kernel).card) :
    Succeeds (mallocPage M .kernel p cnt) (fun r t => r = some ((vaddrBase .kernel + i) * pgSize) ∧
      (∀ k < cnt, ¬ Reserved M s none (vaddrBase .kernel + i + k)) ∧
      Mapped M (s.reserve .kernel p i cnt true) t (vaddrBase .kernel + i) cnt) s := by
  obtain ⟨fits, clear⟩ := M.scan_ok _ _ _ _ found
  have got : Got M s (s.reserve .kernel p i cnt true) none (vaddrBase .kernel + i) cnt := by
    refine got_reserve (fun m : Nat => (Iff.rfl : InVaddr M (half p .kernel) m ↔ _)) fits fun k hk => ?_
    rw [half, VM.vaddrBit, vaddrBase, Nat.add_sub_cancel_left]
    exact clear k hk
  have core' := core.samePhys got.phys fun h m _ _ hr => got.kept h m hr
  have unused (k : Nat) (hk : k < cnt) (g : Nat) : ¬ Uses (s.reserve .kernel p i cnt true) (.page none (vaddrBase .kernel + i + k)) g := by
    intro hg
    rcases core.reserved _ _ _ (got.phys.uses.1 hg) with res | ⟨-, low⟩
    · exact got.fresh k hk res
    · rw [vaddrBase, kHeapStart, pgSize] at low
      omega
  rw [mallocPage, Succeeds, wp_bind, wp_assert]
  refine ⟨fun _ => ?_, fun no => no ⟨pos, small⟩⟩
  rw [wp_bind]
  have get : Succeeds (vaddrGet M .kernel p cnt)
      (fun r t => r = some ((vaddrBase .kernel + i) * pgSize) ∧ t = s.reserve .kernel p i cnt true) s := by
    refine wp_mono vaddrGet_exact ?_ fun _ no => no.elim fun _ high => high.2 fun user => by cases user
    rintro r t (⟨none, -⟩ | ⟨j, found', -, rfl, rfl⟩)
    · rw [Machine.scanVaddr, found] at none
      cases none
    · rw [Machine.scanVaddr, found] at found'
      cases found'
      exact ⟨rfl, rfl⟩
  refine wp_post get ?_
  rintro _ _ ⟨rfl, rfl⟩
  dsimp only
  rw [wp_bind]
  refine wp_post (mapPages_kernel complete cnt _ _ core' got.taken unused (by rwa [free_reserve])) ?_
  rintro _ t ⟨rfl, done⟩
  rw [if_pos rfl, wp_pure]
  exact ⟨rfl, got.fresh, done⟩

end Frames

/-- Other contents behind the same tables. -/
def Spaces.withRam (s : Spaces) (r : Nat → UInt8) : Spaces := { s with ram := r }

section Bytes
variable {M : Machine} {s : Spaces} {α : Type}

theorem wp_onPages {c : Kern VM α} {Q : α → Spaces → Prop} {E : Fault → Prop} :
    wp (onPages c) Q E s ↔ wp c (fun a vm => Q a { s with vm := vm }) E s.vm := wp_zoom

theorem wp_loadByte {vaddr a : Nat} {r : Nat → UInt8} (there : s.phys vaddr = some a) {Q : UInt8 → Spaces → Prop}
    {E : Fault → Prop} : wp (loadByte vaddr) Q E (s.withRam r) ↔ Q (r a) (s.withRam r) := by
  rw [loadByte, wp_bind, wp_get, show (s.withRam r).phys vaddr = some a from there]
  dsimp only
  rw [wp_bind, wp_get, wp_pure]
  rfl

theorem wp_storeByte {vaddr a : Nat} {b : UInt8} {r : Nat → UInt8} (there : s.phys vaddr = some a)
    {Q : Unit → Spaces → Prop} {E : Fault → Prop} :
    wp (storeByte vaddr b) Q E (s.withRam r) ↔ Q () (s.withRam (Function.update r a b)) := by
  rw [storeByte, wp_bind, wp_get, show (s.withRam r).phys vaddr = some a from there]
  dsimp only
  rw [wp_modify]
  rfl

/-- A range of virtual addresses is written at the physical addresses d and nowhere else. -/
theorem memset_spec {dst size : Nat} {value : UInt8} (d : Nat → Nat) (here : ∀ k < size, s.phys (dst + k) = some (d k))
    (somewhere : dst ≠ 0) : Succeeds (memset dst value size) (fun _ t => ∃ r, t = s.withRam r ∧
      ∀ a, (∀ k < size, a ≠ d k) → r a = s.ram a) s := by
  rw [memset, Succeeds, wp_bind, wp_assert]
  refine ⟨fun _ => ?_, fun no => no somewhere⟩
  apply wp_forRange fun k t => ∃ r, t = s.withRam r ∧ ∀ a, (∀ j < k, a ≠ d j) → r a = s.ram a
  · exact ⟨s.ram, rfl, fun _ _ => rfl⟩
  · rintro k _ hk ⟨r, rfl, same⟩
    rw [wp_storeByte (here k hk)]
    refine ⟨_, rfl, fun a away => ?_⟩
    rw [Function.update_of_ne (away k (Nat.lt_succ_self k))]
    exact same a fun j hj => away j (Nat.lt_succ_of_lt hj)

/-- Copying between ranges whose physical addresses are apart. -/
theorem memcpy_spec {dst src size : Nat} (d c : Nat → Nat) (here : ∀ k < size, s.phys (dst + k) = some (d k))
    (there : ∀ k < size, s.phys (src + k) = some (c k)) (inj : ∀ j < size, ∀ k < size, d j = d k → j = k)
    (apart : ∀ j < size, ∀ k < size, d j ≠ c k) (somewhere : dst ≠ 0 ∧ src ≠ 0) :
    Succeeds (memcpy dst src size) (fun _ t => ∃ r, t = s.withRam r ∧ (∀ k < size, r (d k) = s.ram (c k)) ∧
      ∀ a, (∀ k < size, a ≠ d k) → r a = s.ram a) s := by
  rw [memcpy, Succeeds, wp_bind, wp_assert]
  refine ⟨fun _ => ?_, fun no => no somewhere⟩
  apply wp_forRange fun k t => ∃ r, t = s.withRam r ∧ (∀ j < k, r (d j) = s.ram (c j)) ∧
    ∀ a, (∀ j < k, a ≠ d j) → r a = s.ram a
  · exact ⟨s.ram, rfl, (fun _ none => absurd none (Nat.not_lt_zero _)), fun _ _ => rfl⟩
  · rintro k _ hk ⟨r, rfl, copied, same⟩
    rw [wp_bind, wp_loadByte (there k hk), wp_storeByte (here k hk)]
    refine ⟨_, rfl, fun j hj => ?_, fun a away => ?_⟩
    · have source : r (c k) = s.ram (c k) := same _ fun i hi => (apart i (by omega) k hk).symm
      rcases Nat.lt_succ_iff_lt_or_eq.1 hj with hj | rfl
      · rw [Function.update_of_ne fun eq => Nat.ne_of_lt hj (inj j (by omega) k hk eq), copied j hj]
      · rw [Function.update_self]
        exact source
    · rw [Function.update_of_ne (away k (Nat.lt_succ_self k))]
      exact same a fun j hj => away j (Nat.lt_succ_of_lt hj)

/-- A page of the kernel or of the active address space is where its frame is. -/
theorem PageCore.phys_at (core : PageCore M s.vm) {h : Option Nat} {n f o : Nat} (use : Uses s.vm (.page h n) f)
    (active : ∀ p, h = some p → p = s.cr3) (ho : o < pgSize) : s.phys (n * pgSize + o) = some (f + o) := by
  have mod : (n * pgSize + o) % pgSize = o := by
    rw [Nat.mul_add_mod_self_right, Nat.mod_eq_of_lt ho]
  rw [Spaces.phys, pdeIdx_page ho, pteIdx_page ho, mod]
  cases h with
  | none =>
    obtain ⟨low, high, entry⟩ := use
    rw [core.kernel_pde s.cr3 (n / 1024) (by omega) (by omega)]
    dsimp only
    rw [entry, if_pos ⟨rfl, rfl⟩]
  | some p =>
    cases active p rfl
    obtain ⟨-, -, there, entry⟩ := use
    rw [entry, if_pos ⟨there, rfl⟩]

/-- The bytes of two pages are apart, but for the pages of the first megabyte. -/
theorem PageCore.bytes_apart {vm : VM} (core : PageCore M vm) {h h' : Option Nat} {n m f g o o' : Nat}
    (use : Uses vm (.page h n) f) (use' : Uses vm (.page h' m) g) (high : h' = none → 0xc0100 ≤ m)
    (other : ¬ (h = h' ∧ n = m)) (ho : o < pgSize) (ho' : o' < pgSize) : f + o ≠ g + o' := by
  intro same
  rcases core.marked _ _ use' with ⟨j, hj, rfl, -⟩ | ⟨k, low, eq, -⟩
  · have above := frame_ge (M := M) (poolOf (.page h' m)) j
    have aligned := frame_mod (M := M) (poolOf (.page h' m)) j
    rcases core.marked _ _ use with ⟨i, hi, rfl, -⟩ | ⟨-, -, -, low⟩
    · have aligned' := frame_mod (M := M) (poolOf (.page h n)) i
      have eq : M.frame (poolOf (.page h n)) i = M.frame (poolOf (.page h' m)) j := by
        rw [pgSize] at *
        omega
      rw [eq] at use
      have slots := core.uniq _ _ _ use use' (Nat.le_trans (by decide) above)
      exact other (Slot.page.inj slots)
    · rw [pgSize, kStart] at *
      omega
  · obtain ⟨rfl, rfl⟩ := Slot.page.inj eq
    exact absurd (high rfl) (by omega)

/-- Where the bytes of consecutive pages are. -/
theorem PageCore.phys_range (core : PageCore M s.vm) {h : Option Nat} {n cnt : Nat} {F : Nat → Nat}
    (use : ∀ k < cnt, Uses s.vm (.page h (n + k)) (F k)) (active : ∀ p, h = some p → p = s.cr3) {k : Nat}
    (hk : k < cnt * pgSize) : s.phys (n * pgSize + k) = some (F (k / pgSize) + k % pgSize) := by
  have page : k / pgSize < cnt := Nat.div_lt_of_lt_mul (by rwa [Nat.mul_comm])
  have split : n * pgSize + k = (n + k / pgSize) * pgSize + k % pgSize := by
    rw [pgSize]
    omega
  rw [split]
  exact core.phys_at (use _ page) active (Nat.mod_lt _ (by decide))

/-- memcpy between pages: the frames D come to hold what the frames C hold, and nothing else changes. -/
theorem memcpy_pages (core : PageCore M s.vm) {h h' : Option Nat} {d n cnt : Nat} {D C : Nat → Nat}
    (dst : ∀ k < cnt, Uses s.vm (.page h (d + k)) (D k)) (src : ∀ k < cnt, Uses s.vm (.page h' (n + k)) (C k))
    (active : ∀ p, h = some p ∨ h' = some p → p = s.cr3) (high : h = none → 0xc0100 ≤ d)
    (apart : h = h' → d + cnt ≤ n ∨ n + cnt ≤ d) (somewhere : 0 < d ∧ 0 < n) :
    Succeeds (memcpy (d * pgSize) (n * pgSize) (cnt * pgSize)) (fun _ t => ∃ r, t = s.withRam r ∧
      (∀ k < cnt, ∀ o < pgSize, r (D k + o) = s.ram (C k + o)) ∧
      ∀ a, (∀ k < cnt, ∀ o < pgSize, a ≠ D k + o) → r a = s.ram a) s := by
  have page {k : Nat} (hk : k < cnt * pgSize) : k / pgSize < cnt := Nat.div_lt_of_lt_mul (by rwa [Nat.mul_comm])
  have offset (k : Nat) : k % pgSize < pgSize := Nat.mod_lt _ (by decide)
  refine wp_post (memcpy_spec (fun k => D (k / pgSize) + k % pgSize) (fun k => C (k / pgSize) + k % pgSize)
    (fun k hk => core.phys_range dst (fun p hp => active p (.inl hp)) hk)
    (fun k hk => core.phys_range src (fun p hp => active p (.inr hp)) hk) ?_ ?_ ?_) ?_
  · intro j hj k hk same
    by_cases pages : j / pgSize = k / pgSize
    · rw [pages] at same
      rw [← Nat.div_add_mod j pgSize, ← Nat.div_add_mod k pgSize, pages, Nat.add_left_cancel same]
    · refine absurd same (core.bytes_apart (dst _ (page hj)) (dst _ (page hk)) (fun hh => ?_) ?_ (offset j) (offset k))
      · exact Nat.le_trans (high hh) (Nat.le_add_right _ _)
      · rintro ⟨-, eq⟩
        exact pages (Nat.add_left_cancel eq)
  · intro j hj k hk same
    refine (core.bytes_apart (src _ (page hk)) (dst _ (page hj)) (fun hh => ?_) ?_ (offset k) (offset j)) same.symm
    · exact Nat.le_trans (high hh) (Nat.le_add_right _ _)
    · rintro ⟨hh, eq⟩
      have jp := page hj
      have kp := page hk
      generalize j / pgSize = x at eq jp
      generalize k / pgSize = y at eq kp
      rcases apart hh.symm with low | low <;> omega
  · rw [pgSize]
    omega
  · rintro _ t ⟨r, ht, copied, same⟩
    refine ⟨r, ht, fun k hk o ho => ?_, fun a away => same a fun k hk => away _ (page hk) _ (offset k)⟩
    have inside : k * pgSize + o < cnt * pgSize := by
      rw [pgSize] at *
      omega
    have whole := copied _ inside
    rwa [show (k * pgSize + o) / pgSize = k by rw [pgSize] at *; omega,
      show (k * pgSize + o) % pgSize = o by rw [pgSize] at *; omega] at whole

theorem memcpy_page (core : PageCore M s.vm) {h h' : Option Nat} {d n b f : Nat} (dst : Uses s.vm (.page h d) b)
    (src : Uses s.vm (.page h' n) f) (active : ∀ p, h = some p ∨ h' = some p → p = s.cr3) (high : h = none → 0xc0100 ≤ d)
    (apart : h ≠ h') (somewhere : 0 < d ∧ 0 < n) :
    Succeeds (memcpy (d * pgSize) (n * pgSize) pgSize) (fun _ t => ∃ r, t = s.withRam r ∧
      (∀ o < pgSize, r (b + o) = s.ram (f + o)) ∧ ∀ a, (∀ o < pgSize, a ≠ b + o) → r a = s.ram a) s := by
  have one {h : Option Nat} {n b : Nat} (use : Uses s.vm (.page h n) b) (k : Nat) (hk : k < 1) :
      Uses s.vm (.page h (n + k)) b := by
    rwa [Nat.lt_one_iff.1 hk, Nat.add_zero]
  have run := memcpy_pages core (one dst) (one src) active high (fun same => (apart same).elim) somewhere
  rw [Nat.one_mul] at run
  refine wp_post run ?_
  rintro _ t ⟨r, ht, copied, same⟩
  exact ⟨r, ht, copied 0 Nat.one_pos, fun a away => same a fun _ _ => away⟩

/-- What get_kernel_pages does when it finds pages and frames: cnt pages of the kernel from n on are new, and no
other page changes. -/
structure Allocated (M : Machine) (s t : Spaces) (n cnt : Nat) : Prop where
  core : PageCore M t.vm
  cr3 : t.cr3 = s.cr3
  pde : t.vm.pde = s.vm.pde
  userVaddr : t.vm.userVaddr = s.vm.userVaddr
  high : 0xc0100 ≤ n
  fresh : ∀ k < cnt, ¬ Reserved M s.vm none (n + k)
  reserved : ∀ h m, Reserved M t.vm h m ↔ Reserved M s.vm h m ∨ h = none ∧ n ≤ m ∧ m < n + cnt
  pages : ∀ k < cnt, ∃ f, Uses t.vm (.page none (n + k)) f
  kept : ∀ sl f, Uses s.vm sl f → Uses t.vm sl f
  only : ∀ sl f, Uses t.vm sl f → Uses s.vm sl f ∨ ∃ k < cnt, sl = .page none (n + k)
  ram : ∀ h m f, Uses s.vm (.page h m) f → ∀ o < pgSize, t.ram (f + o) = s.ram (f + o)
  frames : (s.vm.free M .kernel).card = (t.vm.free M .kernel).card + cnt
  user : t.vm.free M .user = s.vm.free M .user

/-- The bits that vaddr_get sets for the kernel. -/
theorem reserved_reserve {vm : VM} {p i cnt : Nat} (fits : i + cnt ≤ M.kLen) (h : Option Nat) (m : Nat) :
    Reserved M (vm.reserve .kernel p i cnt true) h m ↔
      Reserved M vm h m ∨ h = none ∧ vaddrBase .kernel + i ≤ m ∧ m < vaddrBase .kernel + i + cnt := by
  constructor
  · rintro ⟨inside, bit⟩
    rw [vaddrBit_reserve inside] at bit
    split at bit
    · next new => exact .inr new
    · exact .inl ⟨inside, bit⟩
  · rintro (⟨inside, bit⟩ | ⟨rfl, low, high⟩)
    · refine ⟨inside, ?_⟩
      rw [vaddrBit_reserve inside, bit, ite_self]
    · have inside : InVaddr M none m := ⟨Nat.le_trans (Nat.le_add_right _ i) low, by
        have base : kHeapStart / pgSize = vaddrBase .kernel := rfl
        rw [base]
        omega⟩
      refine ⟨inside, ?_⟩
      rw [vaddrBit_reserve inside, if_pos ⟨rfl, low, high⟩]

theorem kernelPages_spec (complete : M.Complete) (core : PageCore M s.vm) {i cnt : Nat}
    (found : M.scan s.vm.kernelVaddr M.kLen cnt = some i) (pos : 0 < cnt) (small : cnt < 3840)
    (room : cnt ≤ (s.vm.free M .kernel).card) :
    Succeeds (kernelPages M cnt) (fun r t => r = some ((vaddrBase .kernel + i) * pgSize) ∧
      t.vm.kernelVaddr = setBits s.vm.kernelVaddr i cnt true ∧ Allocated M s t (vaddrBase .kernel + i) cnt) s := by
  rw [kernelPages, Succeeds, wp_bind, wp_get, wp_bind, wp_onPages]
  refine wp_post (mallocPage_kernel complete core found pos small room) ?_
  rintro r vm ⟨rfl, fresh, mapped⟩
  have reserved (h : Option Nat) (m : Nat) : Reserved M (s.vm.reserve .kernel s.cr3 i cnt true) h m ↔
      Reserved M s.vm h m ∨ h = none ∧ vaddrBase .kernel + i ≤ m ∧ m < vaddrBase .kernel + i + cnt :=
    reserved_reserve (M.scan_ok _ _ _ _ found).1 h m
  have uses (sl : Slot) (f : Nat) : Uses (s.vm.reserve .kernel s.cr3 i cnt true) sl f ↔ Uses s.vm sl f :=
    reserve_samePhys.uses
  have kernelVaddr : vm.kernelVaddr = setBits s.vm.kernelVaddr i cnt true := mapped.virt.1
  have high : 0xc0100 ≤ vaddrBase .kernel + i := by
    have base : vaddrBase .kernel = 0xc0100 := by decide
    omega
  generalize vaddrBase .kernel + i = n at *
  choose! F hF using mapped.pages
  have there (k : Nat) (hk : k < cnt * pgSize) :=
    mapped.core.phys_range (s := { s with vm := vm }) hF (fun _ h => by cases h) hk
  dsimp only
  rw [wp_bind]
  refine wp_post (memset_spec _ there (by rw [pgSize]; omega)) ?_
  rintro _ t ⟨r, rfl, same⟩
  rw [wp_pure]
  refine ⟨rfl, kernelVaddr, ?_⟩
  exact
    { core := mapped.core
      cr3 := rfl
      pde := mapped.pde
      userVaddr := mapped.virt.2.1
      high := high
      fresh := fresh
      reserved := fun h m => mapped.virt.reserved.trans (reserved h m)
      pages := mapped.pages
      kept := fun sl f hf => mapped.kept sl f ((uses sl f).2 hf)
      only := fun sl f hf => (mapped.only sl f hf).imp_left (uses sl f).1
      frames := (congrArg Finset.card free_reserve).symm.trans mapped.frames
      user := mapped.user.trans free_reserve
      ram := by
        intro h m f hf o ho
        refine same _ fun k hk => ?_
        have page : k / pgSize < cnt := Nat.div_lt_of_lt_mul (by rwa [Nat.mul_comm])
        refine mapped.core.bytes_apart (mapped.kept _ _ ((uses _ _).2 hf)) (hF _ page) (fun _ => ?_) ?_ ho
          (Nat.mod_lt _ (by decide))
        · exact Nat.le_trans high (Nat.le_add_right _ _)
        · rintro ⟨rfl, rfl⟩
          rcases core.reserved _ _ _ hf with res | ⟨-, low⟩
          · exact fresh _ page res
          · exact absurd low (Nat.not_lt.2 (Nat.le_trans high (Nat.le_add_right _ _))) }

/-- The pages from n on hold what the pages from m on hold. -/
def SameBytes (s : Spaces) (n m cnt : Nat) : Prop :=
  ∀ k < cnt, ∀ d f, Uses s.vm (.page none (n + k)) d → Uses s.vm (.page none (m + k)) f → ∀ o < pgSize, s.ram (d + o) = s.ram (f + o)

/-- The new pages of the kernel are filled from other ones. -/
theorem Allocated.filled {t : Spaces} {n m cnt : Nat} (core : PageCore M s.vm) (new : Allocated M s t n cnt)
    (high : 0xc0100 ≤ m)
    (src : ∀ k < cnt, ∃ f, Uses s.vm (.page none (m + k)) f) :
    Succeeds (memcpy (n * pgSize) (m * pgSize) (cnt * pgSize))
      (fun _ u => ∃ r, u = t.withRam r ∧ Allocated M s u n cnt ∧ SameBytes u n m cnt) t := by
  choose! D hD using new.pages
  choose! F hF using src
  have hF' (k : Nat) (hk : k < cnt) := new.kept _ _ (hF k hk)
  have differ (k : Nat) (hk : k < cnt) (j : Nat) (hj : j < cnt) : n + k ≠ m + j := by
    intro same
    rcases core.reserved _ _ _ (hF j hj) with res | ⟨-, low⟩
    · rw [← same] at res
      exact new.fresh k hk res
    · omega
  have apart : n + cnt ≤ m ∨ m + cnt ≤ n := by
    by_contra overlap
    rcases Nat.le_total n m with below | above
    · exact differ (m - n) (by omega) 0 (by omega) (by omega)
    · exact differ 0 (by omega) (n - m) (by omega) (by omega)
  refine wp_post (memcpy_pages new.core hD hF' (fun p no => by rcases no with no | no <;> cases no) (fun _ => new.high)
    (fun _ => apart) ⟨by have := new.high; omega, by omega⟩) ?_
  rintro _ _ ⟨r, rfl, copied, same⟩
  refine ⟨r, rfl, { new with ram := fun h k f hf o ho => ?_ }, fun k hk d f hd hf o ho => ?_⟩
  · refine (same _ fun j hj o' ho' => ?_).trans (new.ram h k f hf o ho)
    refine new.core.bytes_apart (new.kept _ _ hf) (hD j hj) (fun _ => Nat.le_trans new.high (Nat.le_add_right _ _)) ?_ ho ho'
    rintro ⟨rfl, rfl⟩
    rcases core.reserved _ _ _ hf with res | ⟨-, low⟩
    · exact new.fresh j hj res
    · exact absurd low (Nat.not_lt.2 (Nat.le_trans new.high (Nat.le_add_right _ _)))
  · have into := copied k hk o ho
    rw [hd.fun (hD k hk), hf.fun (hF' k hk)]
    refine into.trans (same _ fun j hj o' ho' => ?_).symm
    refine new.core.bytes_apart (hF' k hk) (hD j hj) (fun _ => Nat.le_trans new.high (Nat.le_add_right _ _)) ?_ ho ho'
    rintro ⟨-, eq⟩
    exact differ j hj k hk eq.symm

/-- addr_v2p goes through wherever there is a page table. -/
theorem addrV2p_returns {vm : VM} {p n : Nat} (there : (vm.pde p (n / 1024)).present = true) :
    Succeeds (addrV2p p (n * pgSize)) (fun _ t => t = vm) vm := by
  have page : pdeIdx (n * pgSize) = n / 1024 := by
    rw [← Nat.add_zero (n * pgSize), pdeIdx_page (by decide)]
  rw [addrV2p, Succeeds, wp_bind, pteOf, wp_bind, wp_get]
  dsimp only
  rw [page, if_pos there, wp_bind, wp_get, wp_pure, wp_pure]

/-- Switching to an address space whose page directory is in a page of the kernel. -/
theorem pageDirActivate_spec (core : PageCore M s.vm) {n : Nat} (low : 0xc0000 ≤ n) (high : n < 0xffc00) :
    Succeeds (pageDirActivate (n * pgSize)) (fun _ t => t = { s with cr3 := n * pgSize }) s := by
  have somewhere : n * pgSize ≠ 0 := by
    rw [pgSize]
    omega
  rw [pageDirActivate, if_pos somewhere, Succeeds, wp_bind, wp_get, wp_bind, wp_onPages]
  refine wp_post (addrV2p_returns (by rw [core.kernel_pde s.cr3 (n / 1024) (by omega) (by omega)])) ?_
  rintro _ _ rfl
  exact (wp_modify _).2 rfl

/-- The slot is one of the address space p. -/
def Slot.Of (p : Nat) : Slot → Prop
  | .page h _ => h = some p
  | .table q _ => q = p

/-- A new page directory maps nothing but the kernel's half. -/
theorem PageCore.newDir (core : PageCore M s.vm) (dir : Nat) (e : Entry) :
    PageCore M ((s.newDir dir).vm.setPde dir 1023 e) ∧
      ∀ sl f, Uses ((s.newDir dir).vm.setPde dir 1023 e) sl f ↔ Uses s.vm sl f ∧ ¬ sl.Of dir := by
  have pde (p i : Nat) (low : i < 1023) : ((s.newDir dir).vm.setPde dir 1023 e).pde p i =
      if p = dir then if 768 ≤ i then s.vm.pde s.cr3 i else ⟨0, false⟩ else s.vm.pde p i := by
    dsimp only [VM.setPde, Spaces.newDir]
    rw [Function.update_idem, Function.update_self]
    by_cases here : p = dir
    · subst here
      rw [Function.update_self, Function.update_of_ne (Nat.ne_of_lt low), if_pos rfl]
    · rw [Function.update_of_ne here, if_neg here]
  have uses (sl : Slot) (f : Nat) :
      Uses ((s.newDir dir).vm.setPde dir 1023 e) sl f ↔ Uses s.vm sl f ∧ ¬ sl.Of dir := by
    have table (p i : Nat) (low : i < 768) : ((s.newDir dir).vm.setPde dir 1023 e).pde p i =
        if p = dir then ⟨0, false⟩ else s.vm.pde p i := by
      rw [pde p i (by omega), if_neg (Nat.not_le.2 low)]
    rcases sl with ⟨_ | p, n⟩ | ⟨p, i⟩
    · exact (and_iff_left nofun).symm
    · simp only [Uses, Slot.Of, Option.some.injEq]
      by_cases low : n < 0xc0000
      · rw [table p (n / 1024) (by omega)]
        by_cases here : p = dir
        · simp [here]
        · simp only [here, if_false, not_false_eq_true, and_true]
          rfl
      · simp [low]
    · simp only [Uses, Slot.Of]
      by_cases low : i < 768
      · rw [table p i low]
        by_cases here : p = dir <;> simp [here]
      · simp [low]
  refine ⟨⟨fun p i low high => ?_, fun sl f hf => ?_, fun a b f ha hb => ?_, fun h n f hf => ?_⟩, uses⟩
  · rw [pde p i high, if_pos low, core.kernel_pde _ i low high, core.kernel_pde _ i low high, ite_self]
  · exact core.marked sl f ((uses sl f).1 hf).1
  · exact core.uniq a b f ((uses a f).1 ha).1 ((uses b f).1 hb).1
  · exact core.reserved h n f ((uses _ f).1 hf).1

/-- What create_page_dir makes in the page n: an address space without pages. -/
structure NewSpace (M : Machine) (s t : Spaces) (n : Nat) : Prop where
  core : PageCore M t.vm
  cr3 : t.cr3 = s.cr3
  userVaddr : t.vm.userVaddr = s.vm.userVaddr
  high : 0xc0100 ≤ n
  low : n < 0xffc00
  fresh : ¬ Reserved M s.vm none n
  reserved : ∀ h m, Reserved M s.vm h m → Reserved M t.vm h m
  uses : ∀ h m f, h ≠ some (n * pgSize) → (Uses s.vm (.page h m) f → Uses t.vm (.page h m) f) ∧
    (Uses t.vm (.page h m) f → Uses s.vm (.page h m) f ∨ h = none ∧ m = n)
  empty : ∀ m f, ¬ Uses t.vm (.page (some (n * pgSize)) m) f
  noTable : ∀ i < 768, (t.vm.pde (n * pgSize) i).present = false
  ram : ∀ h m f, Uses s.vm (.page h m) f → ∀ o < pgSize, t.ram (f + o) = s.ram (f + o)
  frames : (s.vm.free M .kernel).card = (t.vm.free M .kernel).card + 1
  user : t.vm.free M .user = s.vm.free M .user

theorem createPageDir_spec (complete : M.Complete) (core : PageCore M s.vm) {i : Nat}
    (found : M.scan s.vm.kernelVaddr M.kLen 1 = some i) (room : 0 < (s.vm.free M .kernel).card) :
    Succeeds (createPageDir M) (fun r t => r = some ((vaddrBase .kernel + i) * pgSize) ∧
      NewSpace M s t (vaddrBase .kernel + i)) s := by
  rw [createPageDir, Succeeds, wp_bind]
  refine wp_post (kernelPages_spec complete core found (by decide) (by decide) room) ?_
  rintro _ u ⟨rfl, -, new⟩
  generalize vaddrBase .kernel + i = n at *
  have page : Reserved M u.vm none n := (new.reserved none n).2 (.inr ⟨rfl, Nat.le_refl n, Nat.lt_succ_self n⟩)
  have bounds := page.kernel_bounds
  dsimp only
  rw [wp_bind, wp_modify, wp_bind, wp_get, wp_bind, wp_onPages]
  have there : ((u.newDir (n * pgSize)).vm.pde (u.newDir (n * pgSize)).cr3 (n / 1024)).present = true := by
    have old := new.core.kernel_pde u.cr3 (n / 1024) (by omega) (by omega)
    dsimp only [Spaces.newDir]
    rw [Function.update_apply]
    split
    · dsimp only
      rw [if_pos (by omega), old]
    · rw [old]
  refine wp_post (addrV2p_returns there) ?_
  rintro a _ rfl
  rw [wp_bind, wp_modify, wp_pure]
  obtain ⟨core', uses⟩ := new.core.newDir (n * pgSize) ⟨a, true⟩
  exact ⟨rfl,
    { core := core'
      cr3 := new.cr3
      userVaddr := new.userVaddr
      high := bounds.1
      low := bounds.2
      fresh := new.fresh 0 Nat.one_pos
      reserved := fun h m hr => (new.reserved h m).2 (.inl hr)
      uses := fun h m f other => ⟨fun hf => (uses _ f).2 ⟨new.kept _ f hf, other⟩, fun hf => by
        rcases new.only _ f ((uses _ f).1 hf).1 with hf | ⟨k, hk, eq⟩
        · exact .inl hf
        · obtain ⟨hh, hm⟩ := Slot.page.inj eq
          exact .inr ⟨hh, by omega⟩⟩
      empty := fun m f hf => ((uses _ f).1 hf).2 rfl
      noTable := fun i hi => by
        dsimp only [VM.setPde, Spaces.newDir]
        rw [Function.update_self, Function.update_of_ne (by omega), Function.update_self, if_neg (by omega)]
      ram := new.ram
      frames := new.frames
      user := new.user }⟩

end Bytes

end Zhenxiang.Paging
