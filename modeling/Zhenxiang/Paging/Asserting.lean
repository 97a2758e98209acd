import Zhenxiang.Paging.Exhaustion
import Zhenxiang.Paging.Grown

/-! malloc_page with the ASSERT of bitmap_scan: a bitmap without a clear bit stops the kernel. -/
namespace Zhenxiang.Paging
open Lib Kernel

/-- The loop of bitmap_scan that passes over what is set comes to a clear bit. -/
def someClear (bits : Nat → Bool) : Nat → Nat → Bool
  | 0, _ => false
  | n + 1, i => !bits i || someClear bits n (i + 1)

variable (M : Machine)

def vaddrGetAsserting (pf : PoolFlags) (p pgCnt : Nat) : Kern VM (Option Nat) := do
  match pf with
  | .kernel => assert (someClear (← get).kernelVaddr M.kLen 0 = true)
  | .user => assert (someClear ((← get).userVaddr p) (userVaddrLen p) 0 = true)
  vaddrGet M pf p pgCnt

def pallocAsserting (pf : PoolFlags) : Kern VM (Option Nat) := do
  assert (someClear ((← get).poolBit pf) (M.poolLen pf) 0 = true)
  palloc M pf

/-- A missing page table is the first thing page_table_add asks for. -/
def pageTableAddAsserting (p vaddr phyaddr : Nat) : Kern VM Unit := do
  if ((← get).pde p (pdeIdx vaddr)).present = false then
    assert (someClear (← get).kernelPool M.kLen 0 = true)
  pageTableAdd M p vaddr phyaddr

def mapPagesAsserting (pf : PoolFlags) (p : Nat) : Nat → Nat → Kern VM Bool
  | 0, _ => pure true
  | n + 1, vaddr => do
    match ← pallocAsserting M pf with
    | none => pure false
    | some phyaddr =>
      pageTableAddAsserting M p vaddr phyaddr
      mapPagesAsserting pf p n (vaddr + pgSize)

def mallocPageAsserting (pf : PoolFlags) (p pgCnt : Nat) : Kern VM (Option Nat) := do
  assert (0 < pgCnt ∧ pgCnt < 3840)
  match ← vaddrGetAsserting M pf p pgCnt with
  | none => pure none
  | some vaddr =>
    if (← mapPagesAsserting M pf p pgCnt vaddr) = true then
      pure (some vaddr)
    else
      pure none

/-! When a process gets its pages. -/

/-- The directory entries of the pages from n on that have no page table. -/
def missingTables (s : VM) (p n cnt : Nat) : Finset Nat :=
  ((Finset.Ico n (n + cnt)).image fun m => m / 1024).filter fun i => (s.pde p i).present = false

/-- There are enough frames for the pages from n on and for their page tables. -/
def FramesFit (s : VM) (p n cnt : Nat) : Prop :=
  cnt ≤ (s.free M .user).card ∧ (missingTables s p n cnt).card ≤ (s.free M .kernel).card

/-- malloc_page fails no ASSERT over cnt pages for the process p. -/
def PagesFit (s : VM) (p cnt : Nat) : Prop :=
  cnt < 3840 ∧ (∃ i < userVaddrLen p, s.userVaddr p i = false) ∧ ∀ i, M.scanVaddr s .user p cnt = some i →
    userVaddrStart + i * pgSize < 0xc0000000 - pgSize ∧ FramesFit M s p (vaddrBase .user + i) cnt

/-- The frames palloc takes from a user pool with these bits, one after the other. -/
def Machine.nextFrame (bits : Nat → Bool) : Nat → Option Nat
  | 0 => (M.scan bits M.uLen 1).map (M.frame .user)
  | k + 1 => (M.scan bits M.uLen 1).bind fun i => Machine.nextFrame (setBits bits i 1 true) k

section Fits
variable {M} {s t : VM} {pf : PoolFlags} {p n cnt : Nat}

theorem someClear_iff {bits : Nat → Bool} {n i : Nat} : someClear bits n i = true ↔ ∃ k < n, bits (i + k) = false := by
  induction n generalizing i with
  | zero => simp [someClear]
  | succ n ih =>
    simp only [someClear, Bool.or_eq_true, Bool.not_eq_true', ih]
    constructor
    · rintro (here | ⟨k, hk, clear⟩)
      · exact ⟨0, by omega, here⟩
      · exact ⟨k + 1, by omega, by rw [← Nat.add_assoc, Nat.add_right_comm]; exact clear⟩
    · rintro ⟨k, hk, clear⟩
      cases k with
      | zero => exact .inl clear
      | succ k => exact .inr ⟨k, by omega, by rw [Nat.add_right_comm]; exact clear⟩

theorem someClear_zero {bits : Nat → Bool} {n : Nat} : someClear bits n 0 = true ↔ ∃ k < n, bits k = false := by
  simp only [someClear_iff, Nat.zero_add]

theorem someClear_pool : someClear (s.poolBit pf) (M.poolLen pf) 0 = true ↔ (s.free M pf).Nonempty := by
  rw [someClear_zero]
  exact exists_congr fun i => mem_free.symm

/-- The first page and the pages behind it. -/
theorem missingTables_succ : missingTables s p n (cnt + 1) =
    if (s.pde p (n / 1024)).present = false then insert (n / 1024) (missingTables s p (n + 1) cnt)
    else missingTables s p (n + 1) cnt := by
  have first : Finset.Ico n (n + (cnt + 1)) = insert n (Finset.Ico (n + 1) (n + 1 + cnt)) := by
    rw [Finset.insert_Ico_add_one_left_eq_Ico (by omega), Nat.add_right_comm n 1 cnt, Nat.add_assoc]
  rw [missingTables, first, Finset.image_insert, Finset.filter_insert]
  rfl

/-- The page table of the directory entry i is made. -/
theorem missingTables_made {i : Nat} {e : Entry} (made : e.present = true) (pde : t.pde = (s.setPde p i e).pde) :
    missingTables t p n cnt = (missingTables s p n cnt).erase i := by
  ext j
  simp only [missingTables, Finset.mem_filter, Finset.mem_erase, pde, VM.setPde, Function.update_self, Function.update_apply]
  by_cases here : j = i
  · simp [here, made]
  · simp [here]

theorem free_setPool_other {i : Nat} {pf' : PoolFlags} (other : pf' ≠ pf) : (s.setPool pf i true).free M pf' = s.free M pf' := by
  refine free_congr ?_
  rw [poolBit_setPool, if_neg other]

/-- The page table of the page n was there, or a frame has been taken for it. -/
def TableTaken (M : Machine) (s t : VM) (p n : Nat) : Prop :=
  ((s.pde p (n / 1024)).present = true ∧ t.pde = s.pde ∧ t.free M .kernel = s.free M .kernel) ∨
    ∃ j ∈ s.free M .kernel, ∃ e : Entry, e.present = true ∧ (s.pde p (n / 1024)).present = false ∧
      t.pde = (s.setPde p (n / 1024) e).pde ∧ t.free M .kernel = (s.free M .kernel).erase j

/-- One turn of the loop of malloc_page takes a frame for the page, and one for its page table if that is missing. -/
theorem framesFit_succ {i : Nat} (mem : i ∈ s.free M .user) (user : t.free M .user = (s.free M .user).erase i)
    (table : TableTaken M s t p n) :
    FramesFit M t p (n + 1) cnt ↔ FramesFit M s p n (cnt + 1) := by
  have one := Finset.card_erase_add_one mem
  rw [FramesFit, FramesFit, user, missingTables_succ]
  rcases table with ⟨there, pde, kernel⟩ | ⟨j, free, e, made, absent, pde, kernel⟩
  · have same : missingTables t p (n + 1) cnt = missingTables s p (n + 1) cnt := by rw [missingTables, missingTables, pde]
    rw [if_neg (by rw [there]; decide), kernel, same]
    refine and_congr_left fun _ => ?_
    omega
  · rw [if_pos absent, missingTables_made made pde, kernel]
    have frame := Finset.card_erase_add_one free
    have entry := Finset.card_erase_add_one (Finset.mem_insert_self (n / 1024) (missingTables s p (n + 1) cnt))
    rw [Finset.erase_insert_eq_erase] at entry
    omega

/-- palloc behind the ASSERT takes a frame. -/
theorem pallocAsserting_exact (complete : M.Complete) (pf : PoolFlags) : wp (pallocAsserting M pf)
    (fun r t => ∃ i ∈ s.free M pf, r = some (M.frame pf i) ∧ t = s.setPool pf i true ∧
      palloc M pf s = .ok (some (M.frame pf i), s.setPool pf i true)) (fun _ => s.free M pf = ∅) s := by
  rw [pallocAsserting, wp_bind, wp_get, wp_bind, wp_assert, someClear_pool]
  refine ⟨fun left => ?_, Finset.not_nonempty_iff_eq_empty.1⟩
  refine wp_mono (wp_run (palloc_exact complete pf)) ?_ fun _ no => no.elim
  rintro r t ⟨⟨-, -, empty⟩ | ⟨i, mem, rfl, rfl⟩, run⟩
  · rw [empty] at left
    exact absurd left Finset.not_nonempty_empty
  · exact ⟨i, mem, rfl, rfl, run⟩

/-- What page_table_add leaves when it has a frame for the page table. -/
structure Added (M : Machine) (s t : VM) (p n cnt f : Nat) : Prop where
  next : Mappable M t .user p (n + 1) cnt
  user : t.poolBit .user = s.poolBit .user
  found : TableFound M s p (n * pgSize)
  run : pageTableAdd M p (n * pgSize) f s = .ok ((), t)
  table : TableTaken M s t p n

/-- page_table_add behind the ASSERT of the scan for a page table. -/
theorem pageTableAddAsserting_exact (complete : M.Complete) (map : Mappable M s .user p n (cnt + 1)) (f : Nat) :
    wp (pageTableAddAsserting M p (n * pgSize) f) (fun _ t => Added M s t p n cnt f)
      (fun _ => (s.pde p (n / 1024)).present = false ∧ s.free M .kernel = ∅) s := by
  have dir : pdeIdx (n * pgSize) = n / 1024 := by
    rw [← Nat.add_zero (n * pgSize), pdeIdx_page (by decide)]
  have add (found : TableFound M s p (n * pgSize)) : wp (pageTableAdd M p (n * pgSize) f) (fun _ t => Added M s t p n cnt f)
      (fun _ => (s.pde p (n / 1024)).present = false ∧ s.free M .kernel = ∅) s := by
    refine wp_mono (wp_run ((pageTableAdd_mappable complete map f).and_returns (pageTableAdd_pools found))) ?_ fun _ no => no.elim
    rintro _ t ⟨⟨⟨next, same⟩, pools⟩, run⟩
    refine ⟨next, same.pool, found, run, ?_⟩
    rw [dir] at pools
    rcases pools with ⟨there, pde, bits⟩ | ⟨j, low, clear, absent, pde, bits⟩
    · exact .inl ⟨there, pde, free_congr (congrFun bits .kernel)⟩
    · refine .inr ⟨j, mem_free.2 ⟨low, clear⟩, ⟨M.frame .kernel j, true⟩, rfl, Bool.eq_false_of_not_eq_true absent, pde, ?_⟩
      rw [free_congr (congrFun bits .kernel), free_setPool]
  rw [pageTableAddAsserting, wp_bind, wp_get, dir]
  by_cases there : (s.pde p (n / 1024)).present = true
  · rw [if_neg (by rw [there]; decide)]
    exact add (.inl (by rw [dir]; exact there))
  · have absent := Bool.eq_false_of_not_eq_true there
    rw [if_pos absent, wp_bind, wp_get, wp_bind, wp_assert]
    refine ⟨fun left => add (.inr fun none => ?_), fun full => ⟨absent, ?_⟩⟩
    · obtain ⟨k, low, clear⟩ := someClear_zero.1 left
      rw [complete _ _ none k low] at clear
      cases clear
    · exact Finset.not_nonempty_iff_eq_empty.1 fun some_free => full (someClear_pool.2 some_free)

/-- The loop of malloc_page fails no ASSERT exactly when there are frames for the pages and for the page tables. -/
theorem mapPagesAsserting_exact (complete : M.Complete) (cnt : Nat) : ∀ n s, Mappable M s .user p n cnt →
    wp (mapPagesAsserting M .user p cnt (n * pgSize)) (fun r t => r = true ∧ FramesFit M s p n cnt ∧
      TablesFound M .user p cnt (n * pgSize) s ∧ mapPages M .user p cnt (n * pgSize) s = .ok (true, t))
      (fun _ => ¬ FramesFit M s p n cnt) s := by
  induction cnt with
  | zero =>
    intro n s _
    refine (wp_pure _).2 ⟨rfl, ⟨Nat.zero_le _, ?_⟩, trivial, rfl⟩
    rw [missingTables, Nat.add_zero, Finset.Ico_self]
    exact Nat.zero_le _
  | succ cnt ih =>
    intro n s map
    rw [mapPagesAsserting, wp_bind]
    refine wp_mono (pallocAsserting_exact complete .user) ?_ fun _ empty fit => ?_
    · rintro r t ⟨i, mem, rfl, rfl, took⟩
      have pde : (s.setPool .user i true).pde = s.pde := rfl
      have kernel : (s.setPool .user i true).free M .kernel = s.free M .kernel := free_setPool_other (by decide)
      dsimp only
      rw [wp_bind]
      refine wp_mono (pageTableAddAsserting_exact complete (map.setPool .user i) (M.frame .user i)) ?_ ?_
      · rintro _ u ⟨next, user, found, added, table⟩
        rw [TableTaken, pde, kernel] at table
        have fits : FramesFit M u p (n + 1) cnt ↔ FramesFit M s p n (cnt + 1) := by
          refine framesFit_succ mem ?_ table
          rw [free_congr user, free_setPool]
        have step : n * pgSize + pgSize = (n + 1) * pgSize := (Nat.succ_mul n pgSize).symm
        rw [step]
        refine wp_mono (ih (n + 1) u next) ?_ fun _ no fit => no (fits.2 fit)
        rintro r v ⟨all, fit, rest, run⟩
        refine ⟨all, fits.1 fit, ?_, ?_⟩
        · intro f t' took'
          cases took.symm.trans took'
          refine ⟨found, fun u' added' => ?_⟩
          cases added.symm.trans added'
          rw [step]
          exact rest
        · rw [mapPages, run_bind took]
          dsimp only
          rw [run_bind added, step]
          exact run
      · rintro _ ⟨absent, empty⟩ ⟨-, fit⟩
        rw [pde] at absent
        rw [kernel] at empty
        rw [empty, Finset.card_empty, missingTables_succ, if_pos absent] at fit
        exact Finset.insert_ne_empty _ _ (Finset.card_eq_zero.1 (Nat.le_zero.1 fit))
    · have few := fit.1
      rw [empty, Finset.card_empty] at few
      exact absurd few (Nat.not_succ_le_zero cnt)

/-! Which frames the pages get. -/

theorem palloc_next : Returns (palloc M .user) (fun r t => ∀ f, r = some f → ∃ i, M.scan s.userPool M.uLen 1 = some i ∧
    f = M.frame .user i ∧ t.userPool = setBits s.userPool i 1 true) s := by
  rw [palloc, Returns, wp_bind, wp_get]
  dsimp only [Machine.scanPool]
  cases found : M.scan s.userPool M.uLen 1 with
  | none => exact (wp_pure _).2 fun f no => by cases no
  | some i =>
    rw [wp_bind, wp_modify, wp_pure]
    intro f same
    cases same
    exact ⟨i, rfl, rfl, rfl⟩

/-- Page after page gets the next frame of the pool. -/
theorem mapPages_frames (cnt : Nat) : ∀ n s, PageCore M s → (∀ k < cnt, Reserved M s (some p) (n + k)) →
    (∀ k < cnt, ∀ g, ¬ Uses s (.page (some p) (n + k)) g) → TablesFound M .user p cnt (n * pgSize) s →
    Returns (mapPages M .user p cnt (n * pgSize)) (fun r t => r = true → ∀ k < cnt,
      ∃ f, M.nextFrame s.userPool k = some f ∧ Uses t (.page (some p) (n + k)) f) s := by
  induction cnt with
  | zero => exact fun n s _ _ _ _ => (wp_pure _).2 fun _ k hk => absurd hk (Nat.not_lt_zero k)
  | succ cnt ih =>
    intro n s core res free found
    obtain ⟨r, t, run, post, next⟩ := succeeds_iff.1 ((palloc_spec core .user).and_returns palloc_next)
    rw [mapPages, Returns, wp_bind, wp_of_ok run]
    rcases post with ⟨rfl, rfl, -⟩ | ⟨f, rfl, core', marked, unused, virt, pde, pte, -, -⟩
    · exact (wp_pure _).2 fun no => absurd no Bool.false_ne_true
    obtain ⟨i, scan, frame, bits⟩ := next f rfl
    have ext₁ : Extends s t fun _ => False :=
      ⟨virt, fun sl g => (uses_congr pde pte).2, fun sl g use => .inl ((uses_congr pde pte).1 use)⟩
    obtain ⟨table, rest⟩ := found f t run
    have here : Reserved M t (half p .user) n := virt.reserved.2 (res 0 (by omega))
    have free₁ : ∀ g, ¬ Uses t (.page (some p) n) g := ext₁.unused (free 0 (by omega)) id
    have pools := pageTableAdd_pools (M := M) (f := f) table
    rw [← Nat.add_zero (n * pgSize)] at table
    have add := pageTableAdd_spec core' (by decide) here marked unused free₁ table
    rw [Nat.add_zero] at add
    obtain ⟨_, u, run', ⟨core'', ext₂, mapped⟩, pools⟩ := succeeds_iff.1 (add.and_returns pools)
    have user : u.userPool = setBits s.userPool i 1 true := by
      rcases pools with ⟨-, -, same⟩ | ⟨_, _, _, _, _, same⟩
      · exact (congrFun same .user).trans bits
      · exact (congrFun same .user).trans bits
    dsimp only
    rw [wp_bind, wp_of_ok run']
    have step : n * pgSize + pgSize = (n + 1) * pgSize := (Nat.succ_mul n pgSize).symm
    have next : ∀ k, n + 1 + k = n + (k + 1) := fun k => by omega
    have ext := ext₁.trans ext₂
    have res' : ∀ k < cnt, Reserved M u (some p) (n + 1 + k) := fun k hk => by
      rw [next]
      exact ext.virt.reserved.2 (res (k + 1) (by omega))
    have free' : ∀ k < cnt, ∀ g, ¬ Uses u (.page (some p) (n + 1 + k)) g := fun k hk => by
      rw [next]
      refine ext.unused (free (k + 1) (by omega)) ?_
      rintro (no | no)
      · exact no
      · have := (Slot.page.inj no).2
        omega
    rw [step]
    have found' : TablesFound M .user p cnt ((n + 1) * pgSize) u := step ▸ rest u run'
    have spec : Succeeds (mapPages M .user p cnt ((n + 1) * pgSize)) _ u := mapPages_spec cnt (n + 1) u core'' res' free' found'
    refine wp_post (wp_and (ih (n + 1) u core'' res' free' found') spec.returns) ?_
    rintro r v ⟨frames, -, ext₃, -⟩ done k hk
    cases k with
    | zero => exact ⟨f, by rw [Machine.nextFrame, scan, frame, Option.map_some], ext₃.kept _ _ mapped⟩
    | succ k =>
      obtain ⟨g, isNext, use⟩ := frames done k (by omega)
      rw [next] at use
      rw [user] at isNext
      exact ⟨g, by rw [Machine.nextFrame, scan, Option.bind_some]; exact isNext, use⟩

/-- The process p has got the cnt pages that bitmap_scan finds from i on, each with the next frame of the pool. -/
structure Supplied (M : Machine) (s t : VM) (p i cnt : Nat) : Prop where
  scan : M.scanVaddr s .user p cnt = some i
  grown : Grown M s t (some p) (vaddrBase .user + i) cnt
  frames : ∀ k < cnt, ∃ f, M.nextFrame s.userPool k = some f ∧ Uses t (.page (some p) (vaddrBase .user + i + k)) f

/-- malloc_page for a process fails no ASSERT exactly when the pages fit; with NULL there are no virtual pages, and it
has changed nothing. -/
theorem mallocPageAsserting_exact (complete : M.Complete) (core : PageCore M s) (pos : 0 < cnt) :
    wp (mallocPageAsserting M .user p cnt) (fun r t => PagesFit M s p cnt ∧
      (r = none → t = s ∧ M.scanVaddr s .user p cnt = none) ∧
      ∀ v, r = some v → ∃ i, v = (vaddrBase .user + i) * pgSize ∧ Supplied M s t p i cnt) (fun _ => ¬ PagesFit M s p cnt) s := by
  rw [mallocPageAsserting, wp_bind, wp_assert]
  refine ⟨fun bounds => ?_, fun out fit => out ⟨pos, fit.1⟩⟩
  rw [wp_bind, vaddrGetAsserting]
  dsimp only
  rw [wp_bind, wp_get, wp_bind, wp_assert, someClear_zero]
  refine ⟨fun clear => ?_, fun full fit => full fit.2.1⟩
  refine wp_mono (wp_run vaddrGet_exact) ?_ ?_
  · rintro r t ⟨⟨none, rfl, rfl⟩ | ⟨i, found, low, rfl, rfl⟩, get⟩
    · refine (wp_pure _).2 ⟨⟨bounds.2, clear, fun i found => ?_⟩, fun _ => ⟨rfl, none⟩, fun v no => by cases no⟩
      rw [none] at found
      cases found
    · have frames (fit : FramesFit M s p (vaddrBase .user + i) cnt) : PagesFit M s p cnt := by
        refine ⟨bounds.2, clear, fun j found' => ?_⟩
        cases found.symm.trans found'
        exact ⟨low rfl, fit⟩
      have same : FramesFit M (s.reserve .user p i cnt true) p (vaddrBase .user + i) cnt ↔
          FramesFit M s p (vaddrBase .user + i) cnt := by
        rw [FramesFit, FramesFit, free_reserve, free_reserve]
        rfl
      dsimp only
      rw [wp_bind]
      refine wp_mono (mapPagesAsserting_exact complete cnt _ _ (core.tablesFit.mappable found)) ?_
        fun _ no fit => no (same.2 (fit.2.2 i found).2)
      rintro _ t ⟨rfl, fit, tables, run⟩
      rw [if_pos rfl, wp_pure]
      refine ⟨frames (same.1 fit), fun no => absurd no (Option.some_ne_none _), fun v here => ?_⟩
      cases here
      refine ⟨i, rfl, found, ?_, ?_⟩
      · have has : HasTables M s (.mallocPage .user p cnt) := by
          intro v t' get'
          cases get.symm.trans get'
          exact tables
        have whole : mallocPage M .user p cnt s = .ok (some ((vaddrBase .user + i) * pgSize), t) := by
          rw [mallocPage, run_bind (runs_iff.2 ((wp_assert).2 ⟨fun _ => ⟨rfl, rfl⟩, fun no => no bounds⟩)), run_bind get]
          dsimp only
          rw [run_bind run]
          rfl
        obtain ⟨n, address, grown⟩ := returns_iff.1 (mallocPage_grown core has) _ _ whole _ rfl
        obtain rfl : vaddrBase .user + i = n := Nat.eq_of_mul_eq_mul_right (show 0 < pgSize by decide) address
        exact grown
      · have spec : Returns (vaddrGet M .user p cnt) _ s := vaddrGet_spec .user p cnt
        rcases returns_iff.1 spec _ _ get with no | ⟨n, address, got⟩
        · cases no
        obtain rfl : vaddrBase .user + i = n := Nat.eq_of_mul_eq_mul_right (show 0 < pgSize by decide) (Option.some.inj address)
        obtain ⟨core₁, free⟩ := got.unmapped core
        exact returns_iff.1 (mapPages_frames cnt _ _ core₁ got.taken free tables) _ _ run rfl
  · rintro _ ⟨i, found, high⟩ fit
    exact high fun _ => (fit.2.2 i found).1

end Fits

end Zhenxiang.Paging
