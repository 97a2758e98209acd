import Zhenxiang.Paging.PagesCorrect

/-! What a successful malloc_page adds, to the last bit: the counterpart of what mfree_page gives up. -/
namespace Zhenxiang.Paging
open Lib Kernel

variable {M : Machine} {s t u : VM} {pf : PoolFlags} {p n cnt : Nat}

/-- The bits of the pools that are set later were set before or belong to a frame in use, and a frame that
comes into use was free. -/
structure Takes (M : Machine) (s t : VM) : Prop where
  more : ∀ pf i, i < M.poolLen pf → s.poolBit pf i = true → t.poolBit pf i = true
  only : ∀ pf i, i < M.poolLen pf → t.poolBit pf i = true → s.poolBit pf i = true ∨ ∃ sl, Uses t sl (M.frame pf i)
  new : ∀ sl pf i, i < M.poolLen pf → Uses t sl (M.frame pf i) → Uses s sl (M.frame pf i) ∨ s.poolBit pf i = false

theorem Takes.refl (s : VM) : Takes M s s where
  more _ _ _ bit := bit
  only _ _ _ bit := .inl bit
  new _ _ _ _ use := .inl use

theorem Takes.trans (h : Takes M s t) (k : Takes M t u) (kept : ∀ sl f, Uses t sl f → Uses u sl f) : Takes M s u where
  more pf i low bit := k.more pf i low (h.more pf i low bit)
  only pf i low bit := by
    rcases k.only pf i low bit with bit | use
    · rcases h.only pf i low bit with bit | ⟨sl, use⟩
      · exact .inl bit
      · exact .inr ⟨sl, kept sl _ use⟩
    · exact .inr use
  new sl pf i low use := by
    rcases k.new sl pf i low use with use | clear
    · exact h.new sl pf i low use
    · refine .inr (Bool.eq_false_of_not_eq_true fun bit => ?_)
      rw [h.more pf i low bit] at clear
      cases clear

theorem palloc_grows (pf : PoolFlags) : Succeeds (palloc M pf) (fun r t => (r = none ∧ t = s) ∨
    ∃ i < M.poolLen pf, s.poolBit pf i = false ∧ r = some (M.frame pf i) ∧ t = s.setPool pf i true) s := by
  have scan : M.scanPool s pf = M.scan (s.poolBit pf) (M.poolLen pf) 1 := by cases pf <;> rfl
  rw [palloc, Succeeds, wp_bind, wp_get, scan]
  cases found : M.scan (s.poolBit pf) (M.poolLen pf) 1 with
  | none => exact (wp_pure _).2 (.inl ⟨rfl, rfl⟩)
  | some i =>
    obtain ⟨low, clear⟩ := M.scan_ok _ _ _ _ found
    rw [wp_bind, wp_modify, wp_pure]
    exact .inr ⟨i, low, clear 0 Nat.one_pos, rfl, rfl⟩

/-- page_table_add leaves the pools and the directories alone, or takes a frame for the page table. -/
theorem pageTableAdd_pools {vaddr f : Nat} (table : TableFound M s p vaddr) :
    Returns (pageTableAdd M p vaddr f) (fun _ t =>
      ((s.pde p (pdeIdx vaddr)).present = true ∧ t.pde = s.pde ∧ t.poolBit = s.poolBit) ∨
      ∃ i < M.kLen, s.kernelPool i = false ∧ (s.pde p (pdeIdx vaddr)).present ≠ true ∧
        t.pde = (s.setPde p (pdeIdx vaddr) ⟨M.frame .kernel i, true⟩).pde ∧
        t.poolBit = (s.setPool .kernel i true).poolBit) s := by
  have bits (x y : VM) (k : x.kernelPool = y.kernelPool) (u : x.userPool = y.userPool) : x.poolBit = y.poolBit := by
    funext pf
    cases pf with
    | kernel => exact k
    | user => exact u
  rw [pageTableAdd, Returns, wp_bind, wp_get]
  dsimp only
  rw [wp_ite]
  refine ⟨fun there => ?_, fun absent => ?_⟩
  · rw [wp_bind, wp_get, wp_bind, wp_assert, wp_modify]
    exact ⟨fun _ => .inl ⟨there, rfl, bits _ _ rfl rfl⟩, fun _ => trivial⟩
  · rw [wp_bind]
    refine wp_mono (wp_run (palloc_grows (M := M) .kernel)) ?_ fun _ _ => trivial
    rintro r t ⟨⟨rfl, rfl⟩ | ⟨i, low, clear, rfl, rfl⟩, run⟩
    · have none : M.scanPool t .kernel = none := by
        have spec : Succeeds (palloc M .kernel) (fun r _ => r = none → M.scanPool t .kernel = none) t := by
          rw [palloc, Succeeds, wp_bind, wp_get]
          cases found : M.scanPool t .kernel with
          | none => exact (wp_pure _).2 fun _ => rfl
          | some i =>
            rw [wp_bind, wp_modify, wp_pure]
            exact fun no => absurd no (Option.some_ne_none _)
        exact (wp_of_ok run).1 spec rfl
      rcases table with there | some
      · exact absurd there absent
      · exact absurd none some
    · dsimp only [Option.getD_some]
      rw [wp_bind, wp_modify, wp_bind, wp_modify, wp_bind, wp_get, wp_bind, wp_assert, wp_modify]
      exact ⟨fun _ => .inr ⟨i, low, clear, absent, rfl, bits _ _ rfl rfl⟩, fun _ => trivial⟩

/-- One turn of the loop of malloc_page. -/
theorem pageTableAdd_takes {i : Nat} (low : i < M.poolLen pf) (clear : s.poolBit pf i = false)
    (core : PageCore M (s.setPool pf i true)) (res : Reserved M (s.setPool pf i true) (half p pf) n)
    (marked : Marked M (s.setPool pf i true) pf (M.frame pf i)) (unused : ∀ sl, ¬ Uses (s.setPool pf i true) sl (M.frame pf i))
    (free : ∀ g, ¬ Uses (s.setPool pf i true) (.page (half p pf) n) g)
    (table : TableFound M (s.setPool pf i true) p (n * pgSize)) :
    Returns (pageTableAdd M p (n * pgSize) (M.frame pf i)) (fun _ u => Takes M s u) (s.setPool pf i true) := by
  have pde : (s.setPool pf i true).pde = s.pde := by cases pf <;> rfl
  have pte : (s.setPool pf i true).pte = s.pte := by cases pf <;> rfl
  have dir : pdeIdx (n * pgSize) = n / 1024 := by
    rw [← Nat.add_zero (n * pgSize), pdeIdx_page (by decide)]
  have table' := table
  rw [← Nat.add_zero (n * pgSize)] at table'
  have spec := pageTableAdd_spec core (by decide) res marked unused free table'
  rw [Nat.add_zero] at spec
  refine wp_post (wp_and spec.returns (pageTableAdd_pools table)) ?_
  rintro - u ⟨⟨-, ext, mapped⟩, pools⟩
  have page : ∀ pf' j, j < M.poolLen pf' → Uses u (.page (half p pf) n) (M.frame pf' j) → s.poolBit pf' j = false := by
    intro pf' j low' use
    obtain ⟨rfl, rfl⟩ := frame_inj low' low (use.fun mapped)
    exact clear
  have bit : ∀ pf' j, s.poolBit pf' j = true → (s.setPool pf i true).poolBit pf' j = true := by
    intro pf' j set
    rw [setPool_poolBit]
    split
    · rfl
    · exact set
  have old : ∀ pf' j, (s.setPool pf i true).poolBit pf' j = true →
      s.poolBit pf' j = true ∨ ∃ sl, Uses u sl (M.frame pf' j) := by
    intro pf' j set
    rw [setPool_poolBit] at set
    split at set
    · next here =>
      obtain ⟨rfl, rfl⟩ := here
      exact .inr ⟨_, mapped⟩
    · exact .inl set
  rcases pools with ⟨-, same, bits⟩ | ⟨k, low', free', absent, dirs, bits⟩
  · constructor
    · intro pf' j _ set
      rw [bits]
      exact bit pf' j set
    · intro pf' j _ set
      rw [bits] at set
      exact old pf' j set
    · intro sl pf' j low' use
      rcases ext.only sl _ use with use | rfl | ⟨q, idx, rfl⟩
      · exact .inl ((uses_congr pde pte).1 use)
      · exact .inr (page pf' j low' use)
      · refine .inl ⟨use.1, use.2.1, ?_⟩
        rw [← pde, ← same]
        exact use.2.2
  · rw [dir] at absent dirs
    -- only a process can lack a page table
    obtain ⟨process, inside⟩ : 0 < p ∧ n / 1024 < 768 := by
      rcases res.bounds with ⟨-, h1, h2⟩ | ⟨-, h1, h2⟩
      · rw [core.kernel_pde p (n / 1024) (by omega) (by omega)] at absent
        exact absurd rfl absent
      · exact ⟨h1, by omega⟩
    have made : Uses u (.table p (n / 1024)) (M.frame .kernel k) := by
      refine ⟨process, inside, ?_⟩
      rw [dirs]
      simp only [VM.setPde, Function.update_self]
    have clear' : s.poolBit .kernel k = false := Bool.eq_false_of_not_eq_true fun set =>
      absurd (bit .kernel k set) (by rw [show (s.setPool pf i true).poolBit .kernel k = false from free']; decide)
    constructor
    · intro pf' j _ set
      rw [bits, setPool_poolBit]
      split
      · rfl
      · exact bit pf' j set
    · intro pf' j _ set
      rw [bits, setPool_poolBit] at set
      split at set
      · next here =>
        obtain ⟨rfl, rfl⟩ := here
        exact .inr ⟨_, made⟩
      · exact old pf' j set
    · intro sl pf' j low'' use
      rcases ext.only sl _ use with use | rfl | ⟨q, idx, rfl⟩
      · exact .inl ((uses_congr pde pte).1 use)
      · exact .inr (page pf' j low'' use)
      · by_cases here : q = p ∧ idx = n / 1024
        · obtain ⟨rfl, rfl⟩ := here
          obtain ⟨rfl, rfl⟩ := frame_inj low'' (show k < M.poolLen .kernel from low') (use.fun made)
          exact .inr clear'
        · refine .inl ⟨use.1, use.2.1, ?_⟩
          have entry := use.2.2
          rw [dirs] at entry
          rw [← pde]
          by_cases hq : q = p
          · subst hq
            have other : idx ≠ n / 1024 := fun same => here ⟨rfl, same⟩
            simpa only [VM.setPde, Function.update_self, Function.update_of_ne other] using entry
          · simpa only [VM.setPde, Function.update_of_ne hq] using entry

/-- The loop of malloc_page that maps all its pages. -/
theorem mapPages_takes (cnt : Nat) : ∀ n s, PageCore M s → (∀ k < cnt, Reserved M s (half p pf) (n + k)) →
    (∀ k < cnt, ∀ g, ¬ Uses s (.page (half p pf) (n + k)) g) → TablesFound M pf p cnt (n * pgSize) s →
    Returns (mapPages M pf p cnt (n * pgSize)) (fun r t => r = true → Takes M s t) s := by
  induction cnt with
  | zero => exact fun n s _ _ _ _ => (wp_pure _).2 fun _ => .refl s
  | succ cnt ih =>
    intro n s core res free found
    obtain ⟨r, t, run, taken, post⟩ := succeeds_iff.1 (wp_and (palloc_grows pf) (palloc_spec core pf))
    rw [mapPages, Returns, wp_bind, wp_of_ok run]
    rcases taken with ⟨rfl, rfl⟩ | ⟨i, low, clear, rfl, rfl⟩
    · exact (wp_pure _).2 fun no => absurd no Bool.false_ne_true
    rcases post with ⟨no, -⟩ | ⟨f, same, core', marked, unused, virt, pde, pte, -, -⟩
    · exact absurd no (Option.some_ne_none _)
    obtain rfl := Option.some.inj same
    have ext₁ : Extends s (s.setPool pf i true) fun _ => False :=
      ⟨virt, fun sl g => (uses_congr pde pte).2, fun sl g use => .inl ((uses_congr pde pte).1 use)⟩
    obtain ⟨table, rest⟩ := found _ _ run
    have here : Reserved M (s.setPool pf i true) (half p pf) n := virt.reserved.2 (res 0 (by omega))
    have free₁ : ∀ g, ¬ Uses (s.setPool pf i true) (.page (half p pf) n) g := ext₁.unused (free 0 (by omega)) id
    have takes := pageTableAdd_takes low clear core' here marked unused free₁ table
    rw [← Nat.add_zero (n * pgSize)] at table
    have add := pageTableAdd_spec core' (by decide) here marked unused free₁ table
    rw [Nat.add_zero] at add
    obtain ⟨_, u, run', ⟨core'', ext₂, -⟩, takes⟩ := succeeds_iff.1 (add.and_returns takes)
    dsimp only
    rw [wp_bind, wp_of_ok run']
    have step : n * pgSize + pgSize = (n + 1) * pgSize := (Nat.succ_mul n pgSize).symm
    have next : ∀ k, n + 1 + k = n + (k + 1) := fun k => by omega
    have ext := ext₁.trans ext₂
    have res' : ∀ k < cnt, Reserved M u (half p pf) (n + 1 + k) := fun k hk => by
      rw [next]
      exact ext.virt.reserved.2 (res (k + 1) (by omega))
    have free' : ∀ k < cnt, ∀ g, ¬ Uses u (.page (half p pf) (n + 1 + k)) g := fun k hk => by
      rw [next]
      refine ext.unused (free (k + 1) (by omega)) ?_
      rintro (no | no)
      · exact no
      · have := (Slot.page.inj no).2
        omega
    rw [step]
    refine wp_post (wp_and (ih (n + 1) u core'' res' free' (step ▸ rest u run'))
      (mapPages_spec cnt (n + 1) u core'' res' free' (step ▸ rest u run')).returns) ?_
    rintro r v ⟨more, -, ext₃, -⟩ done
    exact takes.trans (more done) ext₃.kept

/-- The cnt pages from n on are there, mapped to frames that were free; besides them only page tables are new. -/
structure Grown (M : Machine) (s t : VM) (h : Option Nat) (n cnt : Nat) : Prop where
  core : PageCore M t
  runs : t.runs = s.runs
  inside : ∀ k < cnt, InVaddr M h (n + k)
  fresh : ∀ k < cnt, s.vaddrBit h (n + k) = false
  vaddr : ∀ h' m, InVaddr M h' m → (t.vaddrBit h' m = true ↔ s.vaddrBit h' m = true ∨ InRange h n cnt (.page h' m))
  kept : ∀ sl f, Uses s sl f → Uses t sl f
  only : ∀ sl f, Uses t sl f → Uses s sl f ∨ InRange h n cnt sl ∨ ∃ p i, sl = .table p i
  mapped : ∀ k < cnt, ∃ f, Uses t (.page h (n + k)) f
  takes : Takes M s t

/-- vaddr_get sets the bits of the range it returns, and no others. -/
theorem vaddrGet_bits (pf : PoolFlags) (p cnt : Nat) :
    Returns (vaddrGet M pf p cnt) (fun r t => r = none ∨ ∃ n, r = some (n * pgSize) ∧
      (∀ h m, InVaddr M h m → (t.vaddrBit h m = true ↔ s.vaddrBit h m = true ∨ InRange (half p pf) n cnt (.page h m)))) s := by
  have set (i : Nat) {h : Option Nat} {m : Nat} (inside : InVaddr M h m) :
      ((s.reserve pf p i cnt true).vaddrBit h m = true ↔
        s.vaddrBit h m = true ∨ InRange (half p pf) (vaddrBase pf + i) cnt (.page h m)) := by
    rw [vaddrBit_reserve inside, inRange_page]
    split
    · next here => simp only [here, and_self, or_true]
    · next out => simp only [out, or_false]
  have base (start i : Nat) (aligned : start % pgSize = 0) : start + i * pgSize = (start / pgSize + i) * pgSize := by
    rw [Nat.add_mul, Nat.div_mul_cancel (Nat.dvd_of_mod_eq_zero aligned)]
  cases pf with
  | kernel =>
    rw [vaddrGet, Returns, wp_bind, wp_get]
    cases M.scan s.kernelVaddr M.kLen cnt with
    | none => exact (wp_pure _).2 (.inl rfl)
    | some i =>
      rw [wp_bind, wp_modify, wp_pure, base kHeapStart i (by decide)]
      exact .inr ⟨_, rfl, fun h m => set i⟩
  | user =>
    rw [vaddrGet, Returns, wp_bind, wp_get]
    cases M.scan (s.userVaddr p) (userVaddrLen p) cnt with
    | none => exact (wp_pure _).2 (.inl rfl)
    | some i =>
      rw [wp_bind, wp_modify, wp_bind, wp_assert]
      refine ⟨fun _ => ?_, fun _ => trivial⟩
      rw [wp_pure, base userVaddrStart i (by decide)]
      exact .inr ⟨_, rfl, fun h m => set i⟩

theorem mallocPage_grown (core : PageCore M s) (tables : HasTables M s (.mallocPage pf p cnt)) :
    Returns (mallocPage M pf p cnt) (fun r t => ∀ v, r = some v → ∃ n, v = n * pgSize ∧
      Grown M s t (half p pf) n cnt) s := by
  rw [mallocPage, Returns, wp_bind, wp_assert]
  refine ⟨fun _ => ?_, fun _ => trivial⟩
  rw [wp_bind]
  refine wp_post (wp_run (wp_and (vaddrGet_spec pf p cnt) (vaddrGet_bits pf p cnt))) ?_
  rintro r t ⟨⟨rfl | ⟨n, rfl, got⟩, bits⟩, run⟩
  · exact (wp_pure _).2 fun v no => by cases no
  rcases bits with no | ⟨m, same, bits⟩
  · cases no
  obtain rfl : n = m := Nat.eq_of_mul_eq_mul_right (show 0 < pgSize by decide) (Option.some.inj same)
  obtain ⟨core₁, free⟩ := got.unmapped core
  have found := tables _ _ run
  dsimp only
  rw [wp_bind]
  refine wp_post (wp_and (mapPages_spec cnt n t core₁ got.taken free found).returns
    (mapPages_takes cnt n t core₁ got.taken free found)) ?_
  rintro r u ⟨⟨core', ext, all⟩, takes⟩
  rw [wp_ite]
  refine ⟨fun done => (wp_pure _).2 ?_, fun _ => (wp_pure _).2 fun v no => by cases no⟩
  rintro v here
  cases here
  have takes := takes done
  refine ⟨n, rfl, core', ext.virt.2.2.trans got.runs, fun k hk => (got.taken k hk).1, fun k hk => ?_, ?_, ?_, ?_,
    all done, ?_⟩
  · exact Bool.eq_false_of_not_eq_true fun set => got.fresh k hk ⟨(got.taken k hk).1, set⟩
  · intro h m inside
    have virt : u.vaddrBit h m = t.vaddrBit h m := by
      cases h <;> simp only [VM.vaddrBit, ext.virt.1, ext.virt.2.1]
    rw [virt]
    exact bits h m inside
  · exact fun sl f use => ext.kept sl f (got.phys.uses.2 use)
  · intro sl f use
    rcases ext.only sl f use with use | new | table
    · exact .inl (got.phys.uses.1 use)
    · exact .inr (.inl new)
    · exact .inr (.inr table)
  · refine ⟨fun pf i low set => takes.more pf i low ?_, fun pf i low set => ?_, fun sl pf i low use => ?_⟩
    · rw [got.phys.poolBit]
      exact set
    · rw [← got.phys.poolBit]
      exact takes.only pf i low set
    · rw [← got.phys.poolBit, ← got.phys.uses]
      exact takes.new sl pf i low use

end Zhenxiang.Paging
