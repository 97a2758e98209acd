import Zhenxiang.Paging.RamRefines

/-! Every step on memory is a call on VM, or leaves VM as it is. -/
namespace Zhenxiang.Paging
open Lib Kernel

variable {M : Machine} {s : Ram} {t : VM} {dir : Nat → Nat}

/-! A walk of the tables finds what VM says. -/

theorem Shows.walk_entry (shows : Shows dir s t) (kernel : KernelHalf t) {p v : Nat} (alive : s.Alive p) (mine : Mine p v)
    (x : Access) : pageWalk x s.bytes (dir p) v =
      if (t.pde p (pdeIdx v)).present = true ∧ (t.pte (t.pde p (pdeIdx v)).addr (pteIdx v)).present = true then
        some ((t.pte (t.pde p (pdeIdx v)).addr (pteIdx v)).addr + v % pgSize) else none := by
  have below := mine.below
  have shown : Shown (dirEntry s.bytes (dir p) v) (t.pde p (pdeIdx v)) := by
    refine shows.pde p (pdeIdx v) alive (by simp only [pdeIdx]; omega) fun zero => ?_
    have above := mine.kernel zero
    simp only [pdeIdx]
    omega
  by_cases present : (t.pde p (pdeIdx v)).present = true
  · have entry : Shown (pageEntry s.bytes (dir p) v) (t.pte (t.pde p (pdeIdx v)).addr (pteIdx v)) := by
      rw [pageEntry, shown.1]
      exact shows.pte _ _ (kernel.tableAt mine present) (Nat.mod_lt _ (by decide))
    by_cases there : (t.pte (t.pde p (pdeIdx v)).addr (pteIdx v)).present = true
    · rw [pageWalk, if_pos ⟨(shown.admits x).2 present, (entry.admits x).2 there⟩, if_pos ⟨present, there⟩, entry.1]
      rfl
    · rw [pageWalk, if_neg fun h => there ((entry.admits x).1 h.2), if_neg fun h => there h.2]
  · rw [pageWalk, if_neg fun h => present ((shown.admits x).1 h.1), if_neg fun h => present h.1]

/-- The half of the address space p that the page n is in. -/
def halfAt (p n : Nat) : Option Nat := if n < 0xc0000 then some p else none

theorem Mine.page {p n o : Nat} (mine : Mine p (n * pgSize + o)) (ho : o < pgSize) :
    n < 0xffc00 ∧ (p = 0 → 0xc0000 ≤ n) := by
  obtain ⟨below, kernel⟩ := mine
  simp only [pgSize] at *
  exact ⟨by omega, fun zero => by have := kernel zero; omega⟩

/-- A page is translated to the frame it holds, whoever asks. -/
theorem Shows.walk_iff (shows : Shows dir s t) (kernel : KernelHalf t) {p n o a : Nat} (alive : s.Alive p)
    (mine : Mine p (n * pgSize + o)) (ho : o < pgSize) (x : Access) :
    pageWalk x s.bytes (dir p) (n * pgSize + o) = some a ↔ ∃ f, a = f + o ∧ Uses t (.page (halfAt p n) n) f := by
  obtain ⟨below, user⟩ := mine.page ho
  have off : (n * pgSize + o) % pgSize = o := by
    rw [Nat.mul_add_mod_self_right, Nat.mod_eq_of_lt ho]
  have backed : Backed t (halfAt p n) n ↔ (t.pde p (n / 1024)).present = true := by
    unfold halfAt
    split
    · next low => exact ⟨fun h => h.2.2, fun h => ⟨Nat.pos_of_ne_zero fun zero => by have := user zero; omega, low, h⟩⟩
    · next high =>
      rw [kernel p (n / 1024) (by omega) (by omega)]
      exact ⟨fun _ => rfl, fun _ => ⟨by omega, below⟩⟩
  have table : (t.pde p (n / 1024)).addr = tableOf t (halfAt p n) n := by
    unfold halfAt
    split
    · rfl
    · rw [kernel p (n / 1024) (by omega) (by omega)]
      rfl
  rw [shows.walk_entry kernel alive mine x, pdeIdx_page ho, pteIdx_page ho, off, table]
  simp only [uses_page, backed]
  by_cases here : (t.pde p (n / 1024)).present = true ∧ (t.pte (tableOf t (halfAt p n) n) (n % 1024)).present = true
  · rw [if_pos here, Option.some.injEq]
    constructor
    · rintro rfl
      exact ⟨_, rfl, here.1, by rw [← here.2]⟩
    · rintro ⟨f, rfl, -, entry⟩
      rw [entry]
  · rw [if_neg here]
    constructor
    · intro no
      cases no
    · rintro ⟨f, -, present, entry⟩
      exact absurd ⟨present, by rw [entry]⟩ here

/-- A page of the kernel, through the active page directory. -/
theorem Shows.walk_kernel (shows : Shows dir s t) (core : PageCore M t) {n o f : Nat} (use : Uses t (.page none n) f)
    (ho : o < pgSize) (x : Access) : pageWalk x s.bytes s.cr3 (n * pgSize + o) = some (f + o) := by
  have low := use.1
  have high := use.2.1
  have mine : Mine s.cur (n * pgSize + o) := by
    simp only [pgSize] at *
    exact ⟨by omega, fun _ => by omega⟩
  rw [shows.cr3, shows.walk_iff core.kernel_pde shows.cur mine ho, halfAt, if_neg (by omega)]
  exact ⟨f, rfl, use⟩

/-! Which frames programs can write. -/

theorem Shows.frame_aligned (shows : Shows dir s t) (core : PageCore M t) {h : Option Nat} {n f : Nat} (use : Uses t (.page h n) f) :
    f % 4096 = 0 := by
  rcases core.marked _ _ use with marked | ⟨m, low, same, -⟩
  · exact marked.aligned
  · -- the first megabyte is in no pool
    cases same
    obtain ⟨first, last, entry⟩ := use
    have shown := shows.pte (kernelTable (n / 1024)) (n % 1024) (.inl ⟨n / 1024, by omega, by omega, rfl⟩) (by omega)
    rw [entry] at shown
    have place : frameOf _ = f := shown.1
    rw [← place]
    exact frameOf_mod _

/-- A page that is not that of a page directory is in a frame without page tables and page directories. -/
theorem Shows.page_frame (shows : Shows dir s t) (core : PageCore M t) {h : Option Nat} {n f : Nat} (use : Uses t (.page h n) f)
    (other : ∀ q, s.pgdir q ≠ 0 → Slot.page none (s.pgdir q / pgSize) ≠ .page h n) :
    f % 4096 = 0 ∧ (∀ q, s.Alive q → dir q ≠ f) ∧ ∀ b, TableAt t b → b ≠ f := by
  refine ⟨shows.frame_aligned core use, ?_⟩
  rcases core.marked _ _ use with marked | ⟨m, -, -, below⟩
  · have above := marked.ge
    refine ⟨?_, ?_⟩
    · rintro q (rfl | alive) rfl
      · rw [shows.kernel] at above
        exact absurd above (by decide)
      · refine other q alive (core.uniq _ _ _ (shows.pages q alive) use ?_)
        simp only [kStart] at above
        omega
    · rintro b (⟨i, -, high, place⟩ | ⟨p, i, table⟩) rfl
      · have under := kernelTable_lt high
        omega
      · have page := core.uniq _ _ _ table use (by simp only [kStart] at above; omega)
        cases page
  · -- the first megabyte is below all of them
    refine ⟨fun q alive => ?_, ?_⟩
    · have above := shows.dir_ge core alive
      simp only [pageDirTablePos, kStart] at above
      omega
    · rintro b (⟨i, -, -, place⟩ | ⟨p, i, table⟩)
      · simp only [kernelTable, pgSize] at place
        omega
      · have above := core.table_ge table
        simp only [kStart] at above
        omega

theorem Shows.activate_step (shows : Shows dir s t) (core : PageCore M t) {p : Nat} (alive : s.Alive p) :
    Succeeds (Ram.pageDirActivate p) (fun _ s' => Shows dir s' t ∧ s'.cur = p ∧ s'.stale = [] ∧ s'.bytes = s.bytes ∧
      s'.pgdir = s.pgdir) s := by
  have put : Shows dir { s with cr3 := dir p, cur := p, stale := [] } t :=
    ⟨shows.books, shows.kernel, shows.null, nofun, rfl, alive, shows.run, shows.heap, shows.pages, shows.apart, shows.self, shows.pde,
      shows.pte, shows.dead⟩
  rw [Ram.pageDirActivate, Succeeds, wp_bind, wp_get, wp_ite]
  constructor
  · intro null
    rw [wp_modify]
    have zero : p = 0 := alive.resolve_right fun no => no null
    subst zero
    rw [shows.kernel] at put
    exact ⟨put, rfl, rfl, rfl, rfl⟩
  · intro process
    have use : Uses t (.page (half s.cur .kernel) (s.pgdir p / pgSize)) (dir p) := shows.pages p process
    have aligned := (shows.heap p process).2
    have page : s.pgdir p / pgSize * pgSize = s.pgdir p := Nat.div_mul_cancel (Nat.dvd_of_mod_eq_zero aligned)
    have mine : Mine s.cur (s.pgdir p) := by
      have low := use.1
      have high := use.2.1
      simp only [pgSize] at low high
      exact ⟨by omega, fun _ => by omega⟩
    have entry : Succeeds (addrV2p s.cur (s.pgdir p)) (fun f _ => f = dir p) t := by
      rw [addrV2p, Succeeds, wp_bind, ← page]
      refine wp_post (pteOf_used core use).2 ?_
      rintro _ _ ⟨rfl, rfl⟩
      rw [wp_pure, Nat.mul_mod_left, Nat.add_zero]
    obtain ⟨_, _, run, rfl⟩ := succeeds_iff.1 entry
    obtain ⟨_, _, run', rfl, rfl, -⟩ := (addrV2p_corres shows core.kernel_pde mine).follows run
    rw [wp_bind, wp_of_ok run', wp_modify]
    exact ⟨put, rfl, rfl, rfl, rfl⟩

/-! create_page_dir. -/

/-- The page directory of a page that malloc_page has just mapped to the frame f: cleared, with the kernel's half of
the active one copied into it and its last entry to itself. -/
def Ram.dirBytes (s : Ram) (f : Nat) : Buf :=
  blit (blit (blit s.bytes f pgSize fun _ => 0) (f + 0x300 * 4) 1024
    (slice (blit s.bytes f pgSize fun _ => 0) (s.cr3 + 0x300 * 4))) (f + 1023 * 4) 4 (ofWords fun _ => f ||| 7)

theorem fillDir_spec (shows : Shows dir s t) (core : PageCore M t) {n f : Nat} (use : Uses t (.page none n) f)
    (agrees : s.Agrees (n * pgSize) f) (high : kHeapStart ≤ n * pgSize) (other : ∀ q, s.pgdir q ≠ 0 → s.pgdir q / pgSize ≠ n) :
    Succeeds (do
      Ram.memset (n * pgSize) 0 (1 * pgSize)
      Ram.memcpy (n * pgSize + 0x300 * 4) (0xfffff000 + 0x300 * 4) 1024
      let newPageDirPhyAddr ← Ram.addrV2p (n * pgSize)
      Ram.store (n * pgSize + 1023 * 4) (newPageDirPhyAddr ||| 7))
      (fun _ s' => s' = { s with bytes := s.dirBytes f }) s := by
  obtain ⟨aligned, no_dir, no_table⟩ := shows.page_frame core use fun q alive same => other q alive (Slot.page.inj same).2
  have below := use.2.1
  have above := use.1
  have apart : s.cr3 ≠ f := by
    rw [shows.cr3]
    exact no_dir s.cur shows.cur
  have active := shows.active.aligned
  simp only [kHeapStart, pgSize] at high
  -- nothing of it touches the tables
  have still {r : Buf} (same : SameBut f s.bytes r) : Shows dir { s with bytes := r } t := shows.write_page core same no_dir no_table
  have page {r : Buf} (same : SameBut f s.bytes r) {o : Nat} (ho : o < pgSize) :
      { s with bytes := r }.Lands .supervisor (n * pgSize + o) (f + o) := by
    refine ⟨(still same).walk_kernel core use ho .supervisor, fun e kept here => ?_⟩
    have page : (n * pgSize + o) / pgSize = n * pgSize / pgSize := by
      simp only [pgSize] at ho ⊢
      omega
    rw [agrees e kept (here.trans page), frameOf_add aligned ho]
    exact frameOf_add aligned (o := 0) (by decide)
  have within (m : Buf) {o size : Nat} (src : Buf) (low : o + size ≤ 4096) : SameBut f m (blit m (f + o) size src) :=
    sameBut_blit aligned low
  have clear {j : Nat} (low : j ≤ pgSize) : SameBut f s.bytes (blit s.bytes f j fun _ => 0) := by
    have same := within s.bytes (fun _ => 0) (show 0 + j ≤ 4096 by rwa [Nat.zero_add])
    rwa [Nat.add_zero] at same
  let m : Buf := blit s.bytes f pgSize fun _ => 0
  have copying {j : Nat} (low : j ≤ 1024) : SameBut f s.bytes (blit m (f + 0x300 * 4) j (slice m (s.cr3 + 0x300 * 4))) :=
    (clear (Nat.le_refl _)).trans (within _ _ (by omega))
  have cleared : Succeeds (Ram.memset (n * pgSize) 0 (1 * pgSize)) (fun _ u => u = { s with bytes := m }) s := by
    rw [Nat.one_mul]
    exact memset_blit (a := f) (by simp only [pgSize]; omega) fun j hj k hk => page (clear hj) hk
  have copied : Succeeds (Ram.memcpy (n * pgSize + 0x300 * 4) (0xfffff000 + 0x300 * 4) 1024)
      (fun _ u => u = { s with bytes := blit m (f + 0x300 * 4) 1024 (slice m (s.cr3 + 0x300 * 4)) }) { s with bytes := m } := by
    refine memcpy_blit (s := { s with bytes := m }) (a := f + 0x300 * 4) (b := s.cr3 + 0x300 * 4) (by omega) (by omega) ?_ ?_
    · intro j hj k hk
      rw [Nat.add_assoc, Nat.add_assoc]
      exact page (copying hj) (by simp only [pgSize]; omega)
    · intro j hj k hk
      rw [Nat.add_assoc, Nat.add_assoc]
      exact ⟨(still (copying hj)).active.last_page (by omega), shows.agrees (by omega)⟩
  have last := still (copying (Nat.le_refl _))
  have mine : Mine s.cur (n * pgSize) := by
    simp only [pgSize]
    exact ⟨by omega, fun _ => by omega⟩
  have entry : Succeeds (addrV2p s.cur (n * pgSize)) (fun a _ => f = a) t := by
    have used : Uses t (.page (half s.cur .kernel) n) f := use
    rw [addrV2p, Succeeds, wp_bind]
    refine wp_post (pteOf_used core used).2 ?_
    rintro _ _ ⟨rfl, rfl⟩
    rw [wp_pure, Nat.mul_mod_left, Nat.add_zero]
  rw [Succeeds, wp_bind]
  refine wp_post cleared ?_
  rintro _ _ rfl
  rw [wp_bind]
  refine wp_post copied ?_
  rintro _ _ rfl
  obtain ⟨_, _, run, rfl⟩ := succeeds_iff.1 entry
  obtain ⟨_, _, run', same, rfl, -⟩ := (addrV2p_corres last core.kernel_pde mine).follows run
  rw [same] at run'
  let u : Ram := { s with bytes := blit m (f + 0x300 * 4) 1024 (slice m (s.cr3 + 0x300 * 4)) }
  have place : u.Lands .supervisor (n * pgSize + 1023 * 4) (f + 1023 * 4) := page (copying (Nat.le_refl _)) (by decide)
  rw [wp_bind, wp_of_ok run', Ram.wp_store place]
  rfl

section NewDir
variable {f : Nat}

theorem dirBytes_same (aligned : f % 4096 = 0) : SameBut f s.bytes (s.dirBytes f) := by
  have within (m : Buf) {o size : Nat} (src : Buf) (low : o + size ≤ 4096) : SameBut f m (blit m (f + o) size src) :=
    sameBut_blit aligned low
  have first := within s.bytes (fun _ => 0) (show 0 + pgSize ≤ 4096 by decide)
  rw [Nat.add_zero] at first
  exact (first.trans (within _ _ (by omega))).trans (within _ _ (by omega))

theorem dirBytes_user {i : Nat} (low : i < 768) : word (s.dirBytes f) (f + 4 * i) = 0 := by
  rw [Ram.dirBytes, word_blit_out (by omega), word_blit_out (by omega), word_blit_in (by omega) (by simp only [pgSize]; omega)]
  rfl

theorem dirBytes_kernel (aligned : f % 4096 = 0) (active : s.cr3 % 4096 = 0) (apart : s.cr3 ≠ f) {i : Nat} (low : 768 ≤ i)
    (high : i < 1023) : word (s.dirBytes f) (f + 4 * i) = word s.bytes (s.cr3 + 4 * i) := by
  have clear : SameBut f s.bytes (blit s.bytes (f + 0) pgSize fun _ => 0) := sameBut_blit aligned (by decide)
  rw [Nat.add_zero] at clear
  rw [Ram.dirBytes, word_blit_out (by omega), word_blit_in (by omega) (by omega), word_slice,
    show s.cr3 + 0x300 * 4 + (f + 4 * i - (f + 0x300 * 4)) = s.cr3 + 4 * i by omega, clear.word active apart (by omega)]

theorem dirBytes_self (aligned : f % 4096 = 0) (small : f + 4096 ≤ 2 ^ 32) : SelfMapped (s.dirBytes f) f := by
  refine ⟨aligned, ?_⟩
  rw [Ram.dirBytes, Nat.mul_comm 4, word_set, or_seven aligned, Nat.mod_eq_of_lt (by omega)]

/-- The address space p has its page directory in the frame f from now on. -/
def Ram.adopt (s : Ram) (p n f : Nat) : Ram :=
  { s with
    bytes := s.dirBytes f, pgdir := Function.update s.pgdir p (n * pgSize)
    runs := Function.update s.runs none (Function.update (s.runs none) (n * pgSize) 1) }

theorem Shows.new_dir (shows : Shows dir s t) (core : PageCore M t) (fits : M.Addressable) {p n : Nat} (use : Uses t (.page none n) f)
    (high : kHeapStart ≤ n * pgSize) (other : ∀ q, s.pgdir q ≠ 0 → s.pgdir q / pgSize ≠ n) (pos : 0 < p) (dead : s.pgdir p = 0) :
    Shows (Function.update dir p f) (s.adopt p n f) (t.setRun none (n * pgSize) 1) := by
  obtain ⟨aligned, no_dir, no_table⟩ := shows.page_frame core use fun q alive same => other q alive (Slot.page.inj same).2
  have marked : Marked M t .kernel f := by
    rcases core.marked _ _ use with marked | ⟨m, low, same, -⟩
    · exact marked
    · cases same
      simp only [kHeapStart, pgSize] at high
      omega
  have apart : s.cr3 ≠ f := by
    rw [shows.cr3]
    exact no_dir s.cur shows.cur
  have base := shows.write_page core (dirBytes_same aligned) no_dir no_table
  have uses {sl : Slot} {g : Nat} : Uses (t.setRun none (n * pgSize) 1) sl g ↔ Uses t sl g := setRun_samePhys.uses
  have tables {b : Nat} : TableAt (t.setRun none (n * pgSize) 1) b ↔ TableAt t b := by simp only [TableAt, uses]
  have page : n * pgSize / pgSize = n := Nat.mul_div_cancel n (by decide)
  -- the others are as before
  have same {q : Nat} (ne : q ≠ p) : Function.update dir p f q = dir q ∧ (s.adopt p n f).pgdir q = s.pgdir q :=
    ⟨Function.update_of_ne ne .., Function.update_of_ne ne ..⟩
  have self : Function.update dir p f p = f ∧ (s.adopt p n f).pgdir p = n * pgSize :=
    ⟨Function.update_self .., Function.update_self ..⟩
  have alive {q : Nat} (ne : q ≠ p) : (s.adopt p n f).Alive q ↔ s.Alive q := by rw [Ram.Alive, (same ne).2, Ram.Alive]
  have active : s.cur ≠ p := by
    rintro rfl
    exact shows.cur.elim (fun zero => by omega) fun here => here dead
  have ne_page {q : Nat} (here : s.pgdir q ≠ 0) : s.pgdir q ≠ n * pgSize := fun eq => other q here (by rw [eq, page])
  have zero : (0 : Nat) ≠ p := by omega
  refine ⟨?_, by rw [(same zero).1, shows.kernel], by rw [(same zero).2, shows.null], shows.stale, ?_, (alive active).2 shows.cur, fun q here => ?_,
    fun q here => ?_, fun q here => ?_, fun q r here eq => ?_, fun q here => ?_, fun q i here low user => ?_, fun b j table low => ?_,
    fun q i here low => ?_⟩
  · have books : s.books = _ := shows.books
    have runs : s.runs = t.runs := congrArg VM.runs books
    have kernelPool : s.kernelPool = t.kernelPool := congrArg VM.kernelPool books
    have userPool : s.userPool = t.userPool := congrArg VM.userPool books
    have kernelVaddr : s.kernelVaddr = t.kernelVaddr := congrArg VM.kernelVaddr books
    have userVaddr : s.userVaddr = t.userVaddr := congrArg VM.userVaddr books
    simp only [SameBooks, Ram.books, Ram.adopt, VM.setRun, runs, kernelPool, userPool, kernelVaddr, userVaddr]
  · exact shows.cr3.trans (same active).1.symm
  · rw [setRun_runs]
    by_cases ne : q = p
    · subst ne
      rw [if_pos ⟨rfl, self.2⟩]
    · rw [(same ne).2] at here ⊢
      rw [if_neg fun eq => ne_page here eq.2]
      exact shows.run q here
  · by_cases ne : q = p
    · subst ne
      rw [self.2]
      exact ⟨high, Nat.mul_mod_left _ _⟩
    · rw [(same ne).2] at here ⊢
      exact shows.heap q here
  · rw [uses]
    by_cases ne : q = p
    · subst ne
      rw [self.1, self.2, page]
      exact use
    · rw [(same ne).2] at here ⊢
      rw [(same ne).1]
      exact shows.pages q here
  · by_cases ne : q = p
    · by_cases ne' : r = p
      · rw [ne, ne']
      · subst ne
        rw [self.2, (same ne').2] at eq
        rw [self.2] at here
        exact absurd eq.symm (ne_page (eq ▸ here))
    · rw [(same ne).2] at here eq
      by_cases ne' : r = p
      · subst ne'
        rw [self.2] at eq
        exact absurd eq (ne_page here)
      · rw [(same ne').2] at eq
        exact shows.apart q r here eq
  · by_cases ne : q = p
    · subst ne
      rw [self.1]
      exact dirBytes_self aligned (marked.small fits)
    · rw [(same ne).1]
      exact base.self q ((alive ne).1 here)
  · by_cases ne : q = p
    · subst ne
      rw [self.1]
      show Shown (word (s.dirBytes f) (f + 4 * i)) (t.pde q i)
      by_cases half : i < 768
      · rw [dirBytes_user half, shows.dead q i (fun h => h.elim (by omega) fun h => h dead) half]
        exact shown_zero
      · have entry := shows.pde s.cur i shows.cur low fun _ => by omega
        rw [dirBytes_kernel aligned shows.active.aligned apart (by omega) low, shows.cr3, core.kernel_pde q i (by omega) low]
        rwa [core.kernel_pde s.cur i (by omega) low] at entry
    · rw [(same ne).1]
      exact base.pde q i ((alive ne).1 here) low user
  · exact base.pte b j (tables.1 table) low
  · have ne : q ≠ p := by
      rintro rfl
      refine here (.inr ?_)
      rw [self.2]
      simp only [kHeapStart] at high
      omega
    exact shows.dead q i (fun h => here ((alive ne).2 h)) low

end NewDir

end Zhenxiang.Paging
