import Zhenxiang.Paging.Exhaustion
import Zhenxiang.Paging.RamSteps

/-! Runs on memory and runs on VM. -/
namespace Zhenxiang.Paging
open Lib Kernel

variable {M : Machine} {s : Ram} {t : VM} {dir : Nat → Nat}

/-! A call of VM keeps the invariant, also when it fails. -/

def PageCall (M : Machine) (s t : VM) : Prop :=
  ∃ e ok, PageAllowed M s e ∧ HasTables M s e ∧ pagePerform M e s = .ok (ok, t)

theorem mallocPage_inv (inv : PageInv M t) {pf : PoolFlags} {p cnt : Nat} (tables : HasTables M t (.mallocPage pf p cnt)) :
    Returns (mallocPage M pf p cnt) (fun _ u => PageInv M u ∧ 0 < cnt) t := by
  rw [mallocPage, Returns, wp_bind, wp_assert]
  refine ⟨fun pos => ?_, fun _ => trivial⟩
  have nothing : Returns (vaddrGet M pf p cnt) (fun r u => r = none → u = t) t := by
    refine wp_mono vaddrGet_exact ?_ fun _ _ => trivial
    rintro r u (⟨-, -, same⟩ | ⟨i, -, -, some, -⟩) none
    · exact same
    · rw [some] at none
      cases none
  rw [wp_bind]
  refine wp_post (wp_run (wp_and (vaddrGet_spec pf p cnt) nothing)) ?_
  rintro r u ⟨⟨post, same⟩, run⟩
  rcases post with rfl | ⟨n, rfl, got⟩
  · cases same rfl
    exact (wp_pure _).2 ⟨inv, pos.1⟩
  · obtain ⟨core, free⟩ := got.unmapped inv.core
    dsimp only
    rw [wp_bind]
    refine wp_mono (mapPages_spec cnt n u core got.taken free (tables _ _ run)) ?_ fun _ _ => trivial
    rintro b v ⟨core', ext, -⟩
    have inv' : PageInv M v := by
      refine inv.more core' (ext.virt.2.2.trans got.runs) ?_ fun h m hr => ext.virt.reserved.2 (got.kept h m hr)
      exact fun sl f hf => ext.kept sl f (got.phys.uses.2 hf)
    rw [wp_ite, wp_pure, wp_pure]
    exact ⟨fun _ => ⟨inv', pos.1⟩, fun _ => ⟨inv', pos.1⟩⟩

theorem getWithout_none {pf : PoolFlags} {p v : Nat} (core : PageCore M t) :
    Returns (getAPageWithoutOpvaddrbitmap M pf p v) (fun r u => r = none → u = t) t := by
  rw [getAPageWithoutOpvaddrbitmap, Returns, wp_bind]
  refine wp_mono (palloc_spec core pf) ?_ fun _ _ => trivial
  rintro r u (⟨rfl, rfl, -⟩ | ⟨f, rfl, -⟩)
  · exact (wp_pure _).2 fun _ => rfl
  · dsimp only
    rw [wp_bind]
    refine wp_post (wp_trivial _) fun _ v _ => ?_
    rw [wp_pure]
    intro no
    cases no

theorem getAPage_inv (inv : PageInv M t) {pf : PoolFlags} {p n o : Nat} (ho : o < pgSize) (inside : InVaddr M (half p pf) n) :
    Returns (getAPage M pf p (n * pgSize + o)) (fun r u => r = none → PageInv M u) t := by
  have idx := bitIdx_page inside ho
  have kept : ∀ h m, Reserved M t h m → Reserved M (t.reserve pf p (n - vaddrBase pf) 1 true) h m := by
    intro h m res
    refine ⟨res.1, ?_⟩
    rw [vaddrBit_reserve res.1, res.2, ite_self]
  have phys : SamePhys t (t.reserve pf p (n - vaddrBase pf) 1 true) := reserve_samePhys
  have inv' : PageInv M (t.reserve pf p (n - vaddrBase pf) 1 true) :=
    inv.more (inv.core.samePhys phys fun h m _ _ => kept h m) reserve_runs (fun _ _ use => phys.uses.2 use) kept
  have go : Returns (getAPageWithoutOpvaddrbitmap M pf p (n * pgSize + o)) (fun r u => r = none → PageInv M u)
      (t.reserve pf p (n - vaddrBase pf) 1 true) := by
    refine wp_post (getWithout_none inv'.core) fun r u same none => ?_
    rw [same none]
    exact inv'
  cases pf with
  | kernel =>
    rw [show vaddrBase .kernel * pgSize = kHeapStart by decide] at idx
    rw [getAPage_kernel, Returns, wp_bind, wp_assert]
    refine ⟨fun _ => ?_, fun _ => trivial⟩
    rw [wp_bind, wp_assert]
    refine ⟨fun _ => ?_, fun _ => trivial⟩
    rw [wp_bind, wp_modify, idx]
    exact go
  | user =>
    rw [show vaddrBase .user * pgSize = userVaddrStart by decide] at idx
    rw [getAPage_user, Returns, wp_bind, wp_assert]
    refine ⟨fun _ => ?_, fun _ => trivial⟩
    rw [wp_bind, wp_assert]
    refine ⟨fun _ => ?_, fun _ => trivial⟩
    rw [wp_bind, wp_modify, idx]
    exact go

theorem pageInv_call {u : VM} (inv : PageInv M t) (call : PageCall M t u) : PageInv M u := by
  obtain ⟨e, ok, allowed, tables, run⟩ := call
  cases ok with
  | true => exact pageInv_step inv allowed tables run
  | false =>
    have small (v : Nat) : v % pgSize < pgSize := Nat.mod_lt v (by decide)
    cases e with
    | mallocPage pf p cnt =>
      have post : Returns (pagePerform M (.mallocPage pf p cnt)) (fun ok u => ok = false → PageInv M u) t := by
        rw [pagePerform, Returns, wp_bind]
        refine wp_post (mallocPage_inv inv tables) ?_
        rintro (_ | v) u ⟨inv', -⟩
        · exact (wp_pure _).2 fun _ => inv'
        · dsimp only
          rw [wp_bind, wp_modify, wp_pure]
          intro no
          cases no
      exact returns_iff.1 post _ _ run rfl
    | getAPage pf p v =>
      have none := getAPage_inv inv (small v) allowed
      rw [page_split] at none
      have post : Returns (pagePerform M (.getAPage pf p v)) (fun ok u => ok = false → PageInv M u) t := by
        rw [pagePerform, Returns, wp_bind]
        refine wp_post none fun r u inv' => (wp_pure _).2 fun no => inv' ?_
        exact Option.not_isSome_iff_eq_none.1 (by rw [no]; exact Bool.false_ne_true)
      exact returns_iff.1 post _ _ run rfl
    | getAPageWithoutOpvaddrbitmap pf p v =>
      have post : Returns (pagePerform M (.getAPageWithoutOpvaddrbitmap pf p v)) (fun ok u => ok = false → PageInv M u) t := by
        rw [pagePerform, Returns, wp_bind]
        refine wp_post (getWithout_none inv.core) fun r u same => (wp_pure _).2 fun no => ?_
        rw [same (Option.not_isSome_iff_eq_none.1 (by rw [no]; exact Bool.false_ne_true))]
        exact inv
      exact returns_iff.1 post _ _ run rfl
    | mfreePage pf p v cnt =>
      obtain ⟨no, -⟩ := (wp_of_ok run).1 (mfree_step inv allowed)
      cases no

/-! Where the frames for page tables last, on memory and on VM. -/

theorem Ram.TableLeft.found (shows : Shows dir s t) {v : Nat} (mine : Mine s.cur v) (left : s.TableLeft M v) :
    TableFound M t s.cur v := by
  rcases left with present | scan
  · exact .inl ((shows.pde_shown mine).2.1.1 present)
  · refine .inr ?_
    have books : s.books = t.blank := shows.books
    rwa [books] at scan

theorem Ram.TablesLeft.found (fits : M.Addressable) {pf : PoolFlags} (cnt : Nat) : ∀ n s t, Shows dir s t → PageCore M t →
    (∀ k < cnt, Reserved M t (half s.cur pf) (n + k)) → (∀ k < cnt, ∀ g, ¬ Uses t (.page (half s.cur pf) (n + k)) g) →
    Ram.TablesLeft M pf cnt (n * pgSize) s → TablesFound M pf s.cur cnt (n * pgSize) t := by
  induction cnt with
  | zero => exact fun n s t _ _ _ _ _ => trivial
  | succ cnt ih =>
    intro n s t shows core res free left f t₁ run
    obtain ⟨_, s₁, run', rfl, tracks, -, -, post⟩ := (palloc_corres shows core pf).follows run
    obtain ⟨core₁, marked, unused, virt, pde, pte, -⟩ := post f rfl
    obtain ⟨table, rest⟩ := left f s₁ run'
    have uses {sl : Slot} {g : Nat} : Uses t₁ sl g ↔ Uses t sl g := uses_congr pde pte
    rw [← tracks.cur] at res free ⊢
    have here : Reserved M t₁ (half s₁.cur pf) n := virt.reserved.2 (res 0 (by omega))
    have free₁ (g : Nat) : ¬ Uses t₁ (.page (half s₁.cur pf) n) g := fun use => free 0 (by omega) g (uses.1 use)
    have mine := here.mine (o := 0) (by decide)
    rw [Nat.add_zero] at mine
    have found := table.found tracks.shows mine
    refine ⟨found, fun u run₂ => ?_⟩
    rw [← Nat.add_zero (n * pgSize)] at found
    have add := (pageTableAdd_corres tracks.shows core₁ fits (by decide) here marked found).ensures
      (pageTableAdd_spec core₁ (by decide) here marked unused free₁ found).returns
    rw [Nat.add_zero] at add
    obtain ⟨_, s₂, run₂', tracks₂, ⟨core₂, ext, -⟩, -⟩ := add.follows run₂
    have left₂ := rest s₂ run₂'
    have step : n * pgSize + pgSize = (n + 1) * pgSize := by rw [Nat.succ_mul]
    have next (k : Nat) : n + 1 + k = n + (k + 1) := by omega
    rw [step] at left₂ ⊢
    rw [← tracks₂.cur] at res free ⊢
    refine ih (n + 1) s₂ u tracks₂.shows core₂ ?_ ?_ left₂
    · intro k hk
      rw [next]
      exact ext.virt.reserved.2 (virt.reserved.2 (res (k + 1) (by omega)))
    · intro k hk
      rw [next]
      refine ext.unused (fun g use => free (k + 1) (by omega) g (uses.1 use)) fun same => ?_
      simp only [Slot.page.injEq] at same
      omega

/-- The call of VM that a step on memory is. -/
def RamEvent.call (cur : Nat) : RamEvent → Option PageEvent
  | .activate _ => none
  | .createPageDir _ => some (.mallocPage .kernel cur 1)
  | .mallocPage pf pgCnt => some (.mallocPage pf cur pgCnt)
  | .getAPage pf vaddr => some (.getAPage pf cur vaddr)
  | .getAPageWithoutOpvaddrbitmap pf vaddr => some (.getAPageWithoutOpvaddrbitmap pf cur vaddr)
  | .mfreePage pf vaddr pgCnt => some (.mfreePage pf cur vaddr pgCnt)
  | .poke _ _ _ => none

theorem Shows.bits (shows : Shows dir s t) : (∀ h n, t.vaddrBit h n = s.books.vaddrBit h n) ∧ s.runs = t.runs := by
  have books : s.books = t.blank := shows.books
  rw [books]
  refine ⟨fun h n => by cases h <;> rfl, ?_⟩
  exact congrArg VM.runs books

theorem RamAllowed.page (shows : Shows dir s t) {e : RamEvent} {c : PageEvent} (allowed : RamAllowed M s e)
    (call : e.call s.cur = some c) : PageAllowed M t c := by
  cases e <;> cases call
  · trivial
  · trivial
  · exact allowed
  · exact ⟨allowed.1, by rw [shows.bits.1]; exact allowed.2⟩
  · exact ⟨allowed.1, by rw [← shows.bits.2]; exact allowed.2.1⟩

theorem InVaddr.mine {pf : PoolFlags} {p n off : Nat} (inside : InVaddr M (half p pf) n) (ho : off < pgSize) :
    Mine p (n * pgSize + off) := by
  have below := inside.lt
  have above := inside.ge
  simp only [pgSize] at *
  refine ⟨by omega, ?_⟩
  rintro rfl
  cases pf with
  | kernel =>
    simp only [vaddrBase, kHeapStart, pgSize] at above
    omega
  | user =>
    obtain ⟨low, high⟩ := inside
    simp only [userVaddrLen, if_true] at high
    omega

theorem RamTables.page (fits : M.Addressable) (shows : Shows dir s t) (inv : PageInv M t) {e : RamEvent} {c : PageEvent}
    (allowed : RamAllowed M s e) (tables : RamTables M s e) (call : e.call s.cur = some c) : HasTables M t c := by
  have small (v : Nat) : v % pgSize < pgSize := Nat.mod_lt v (by decide)
  have malloc {pf : PoolFlags} {cnt : Nat}
      (left : ∀ v u, onBooks (vaddrGet M pf s.cur cnt) s = .ok (some v, u) → Ram.TablesLeft M pf cnt v u) :
      HasTables M t (.mallocPage pf s.cur cnt) := by
    intro v t₁ run
    obtain ⟨_, s₁, run', ⟨rfl, tracks, -⟩, post, -⟩ := (((blind_vaddrGet pf s.cur cnt).corres shows).ensures (vaddrGet_spec pf s.cur cnt)).follows run
    obtain ⟨n, place, got⟩ := post.resolve_left (Option.some_ne_none v)
    cases place
    obtain ⟨core, free⟩ := got.unmapped inv.core
    have taken := got.taken
    rw [← tracks.cur] at taken free ⊢
    exact Ram.TablesLeft.found fits cnt n s₁ t₁ tracks.shows core taken free (left _ _ run')
  have here {pf : PoolFlags} {v : Nat} (inside : InVaddr M (half s.cur pf) (v / pgSize)) : Mine s.cur v := by
    have mine := inside.mine (small v)
    rwa [page_split] at mine
  cases e <;> cases call
  · -- a page of the kernel needs no new table
    intro v t₁ run
    rcases returns_iff.1 (vaddrGet_spec (M := M) (s := t) .kernel s.cur 1) _ _ run with no | ⟨n, place, got⟩
    · cases no
    cases place
    obtain ⟨core, -⟩ := got.unmapped inv.core
    intro f t₂ run'
    rcases (wp_of_ok run').1 (palloc_spec core .kernel) with ⟨no, -⟩ | ⟨g, -, core', -⟩
    · cases no
    refine ⟨.inl ?_, fun _ _ => trivial⟩
    rcases (got.taken 0 Nat.one_pos).bounds with ⟨-, low, high⟩ | ⟨no, -⟩
    · rw [Nat.add_zero] at low high
      have idx := pdeIdx_page (n := n) (o := 0) (by decide)
      rw [Nat.add_zero] at idx
      rw [idx, core'.kernel_pde _ _ (by omega) (by omega)]
    · cases no
  · exact malloc tables
  · exact tables.found shows (here allowed)
  · exact tables.found shows (here allowed.1)
  · trivial

/-! Each step, and the call it is. -/

/-- Page directories stay where they are. -/
structure Settles (e : RamEvent) (ok : Bool) (s s' : Ram) : Prop where
  cur : s'.cur = s.cur
  pgdir : ∀ q, e ≠ .createPageDir q → s'.pgdir q = s.pgdir q
  made : ok = true → ∀ p, e = .createPageDir p → s'.pgdir p ≠ 0

theorem Shows.setRun_corres (shows : Shows dir s t) {h : Option Nat} {v cnt : Nat}
    (kept : ∀ p, s.pgdir p ≠ 0 → (t.setRun h v cnt).runs none (s.pgdir p) = 1) :
    Corres (onBooks (modify fun vm => vm.setRun h v cnt)) (modify fun vm => vm.setRun h v cnt) (fun _ _ s' t' => Keeps dir s s' t') s t := by
  have books : s.books = t.blank := shows.books
  refine (wp_modify _).2 ?_
  rw [onBooks, Succeeds, wp_zoom, wp_modify]
  refine ⟨⟨rfl, rfl, ?_, shows.kernel, shows.null, shows.stale, shows.cr3, shows.cur, kept, shows.heap, shows.pages, shows.apart,
    shows.self, shows.pde, shows.pte, shows.dead⟩, rfl⟩
  have same : (s.setBooks (s.books.setRun h v cnt)).books = s.books.setRun h v cnt := rfl
  rw [SameBooks, same, books]
  rfl

/-- Ranges that have just been handed out are no page directories. -/
theorem Shows.not_dir (shows : Shows dir s t) (inv : PageInv M t) {n q : Nat} (alive : s.pgdir q ≠ 0) (fresh : ¬ Reserved M t none n) :
    s.pgdir q / pgSize ≠ n := by
  rintro rfl
  refine fresh (inv.held none (s.pgdir q) 0 ?_).1
  rw [shows.run q alive]
  exact Nat.one_pos

theorem malloc_event (fits : M.Addressable) (shows : Shows dir s t) (inv : PageInv M t) {pf : PoolFlags} {cnt : Nat}
    (tables : HasTables M t (.mallocPage pf s.cur cnt)) :
    Corres (ramPerform M (.mallocPage pf cnt)) (pagePerform M (.mallocPage pf s.cur cnt)) (fun a b s' t' => a = b ∧ Tracks dir s s' t') s t := by
  refine corres_get_left (corres_bind ((mallocPage_corres fits shows inv tables).ensures
    (wp_and (mallocPage_spec inv tables) (mallocPage_inv inv tables))) ?_)
  rintro r _ s₁ t₁ ⟨⟨rfl, tracks⟩, ⟨post, -, pos⟩, -⟩
  cases r with
  | none => exact corres_pure ⟨rfl, tracks.toTracks⟩
  | some v =>
    obtain ⟨n, rfl, -, fresh, runs, -⟩ := post v rfl
    refine corres_bind (tracks.shows.setRun_corres fun q alive => ?_) fun _ _ s₂ t₂ last => corres_pure ⟨rfl, (tracks.trans last).toTracks⟩
    rw [setRun_runs, if_neg, tracks.shows.run q alive]
    rintro ⟨side, place⟩
    rw [tracks.pgdir] at alive place
    cases pf with
    | kernel =>
      refine shows.not_dir inv alive (fresh 0 pos) ?_
      rw [place, Nat.mul_div_cancel n (by decide), Nat.add_zero]
    | user => cases side

theorem mfree_event (shows : Shows dir s t) (inv : PageInv M t) {pf : PoolFlags} {v cnt : Nat}
    (allowed : RamAllowed M s (.mfreePage pf v cnt)) :
    Corres (ramPerform M (.mfreePage pf v cnt)) (pagePerform M (.mfreePage pf s.cur v cnt)) (fun a b s' t' => a = b ∧ Tracks dir s s' t') s t := by
  obtain ⟨pos, run, no_dir⟩ := allowed
  rw [shows.bits.2] at run
  have aligned := inv.aligned (half s.cur pf) v (by omega)
  have page : v / pgSize * pgSize = v := Nat.div_mul_cancel (Nat.dvd_of_mod_eq_zero aligned)
  have held (k : Nat) (hk : k < cnt) := inv.held (half s.cur pf) v k (by omega)
  have other (q : Nat) (alive : s.pgdir q ≠ 0) (k : Nat) (hk : k < cnt) :
      Slot.page none (s.pgdir q / pgSize) ≠ .page (half s.cur pf) (v / pgSize + k) := by
    intro same
    obtain ⟨side, place⟩ := Slot.page.inj same
    cases pf with
    | kernel =>
      have dirs := shows.run q alive
      exact no_dir rfl q (shows.pos alive) (inv.apart none _ _ 0 k (by omega) (by rw [← run] at hk; exact hk) (by omega))
    | user => cases side
  have spec := mfreePage_spec inv.core pos (fun k hk => (held k hk).1) fun k hk => (held k hk).2
  have free := (mfreePage_corres shows inv.core pos (fun k hk => (held k hk).1) (fun k hk => (held k hk).2) other).ensures spec.returns
  rw [page] at free
  refine corres_get_left (corres_bind free ?_)
  rintro _ _ s₁ t₁ ⟨tracks, ⟨-, -, runs⟩, -⟩
  refine corres_bind (tracks.shows.setRun_corres fun q alive => ?_) fun _ _ s₂ t₂ last => corres_pure ⟨rfl, tracks.trans last.toTracks⟩
  rw [setRun_runs, if_neg, tracks.shows.run q alive]
  rintro ⟨side, place⟩
  rw [tracks.pgdir] at alive place
  refine other q alive 0 pos ?_
  rw [place, side, Nat.add_zero]

theorem getAPage_event (fits : M.Addressable) (shows : Shows dir s t) (inv : PageInv M t) {pf : PoolFlags} {v : Nat}
    (inside : InVaddr M (half s.cur pf) (v / pgSize)) (found : TableFound M t s.cur v) :
    Corres (ramPerform M (.getAPage pf v)) (pagePerform M (.getAPage pf s.cur v)) (fun a b s' t' => a = b ∧ Tracks dir s s' t') s t := by
  have split := page_split v
  rw [← split] at found
  have get := getAPage_corres fits shows inv (Nat.mod_lt v (by decide)) inside found
  rw [split] at get
  refine corres_bind get ?_
  rintro r _ s₁ t₁ ⟨rfl, tracks⟩
  exact corres_pure ⟨rfl, tracks.toTracks⟩

theorem getWithout_event (fits : M.Addressable) (shows : Shows dir s t) (core : PageCore M t) {pf : PoolFlags} {v : Nat}
    (res : Reserved M t (half s.cur pf) (v / pgSize)) (found : TableFound M t s.cur v) :
    Corres (ramPerform M (.getAPageWithoutOpvaddrbitmap pf v)) (pagePerform M (.getAPageWithoutOpvaddrbitmap pf s.cur v))
      (fun a b s' t' => a = b ∧ Tracks dir s s' t') s t := by
  have split := page_split v
  rw [← split] at found
  have get := getWithout_corres fits shows core (Nat.mod_lt v (by decide)) res found
  rw [split] at get
  refine corres_bind get ?_
  rintro r _ s₁ t₁ ⟨rfl, tracks⟩
  exact corres_pure ⟨rfl, tracks.toTracks⟩

/-- The page directory is filled behind the call of malloc_page. -/
theorem createPageDir_corres (fits : M.Addressable) (shows : Shows dir s t) (inv : PageInv M t)
    (tables : HasTables M t (.mallocPage .kernel s.cur 1)) {p : Nat} (left : RamTables M s (.createPageDir p)) :
    Corres (Ram.createPageDir M) (mallocPage M .kernel s.cur 1) (fun a b s' t' => a = b ∧ ∃ s₁, Tracks dir s s₁ t' ∧
      (a = none → s' = s₁) ∧ ∀ v, a = some v → ∃ n f, v = n * pgSize ∧ kHeapStart ≤ n * pgSize ∧ PageInv M t' ∧
        Uses t' (.page none n) f ∧ (∀ q, s₁.pgdir q ≠ 0 → s₁.pgdir q / pgSize ≠ n) ∧ s' = { s₁ with bytes := s₁.dirBytes f }) s t := by
  rw [Ram.createPageDir, Ram.getKernelPages, bind_assoc]
  refine corres_then ((mallocPage_corres fits shows inv tables).ran.ensures (mallocPage_spec inv tables)) ?_
  rintro r _ s₁ t₁ ⟨⟨⟨rfl, tracks⟩, run⟩, post, -⟩
  cases r with
  | none =>
    simp only [Succeeds, wp_bind, wp_pure]
    refine ⟨trivial, s₁, tracks.toTracks, fun _ => rfl, ?_⟩
    rintro v ⟨⟩
  | some v =>
    obtain ⟨n, rfl, inv₁, fresh, -, all⟩ := post v rfl
    obtain ⟨res, f, use⟩ := all 0 Nat.one_pos
    rw [Nat.add_zero] at res use
    have high : kHeapStart ≤ n * pgSize := by
      have low := res.1.1
      simp only [kHeapStart, pgSize] at low ⊢
      omega
    have other (q : Nat) (alive : s₁.pgdir q ≠ 0) : s₁.pgdir q / pgSize ≠ n := by
      rw [tracks.pgdir] at alive ⊢
      exact shows.not_dir inv alive (fresh 0 Nat.one_pos)
    have agrees : s₁.Agrees (n * pgSize) f := by
      have place := tracks.shows.walk_kernel inv₁.core use (o := 0) (by decide) .supervisor
      rw [Nat.add_zero, Nat.add_zero] at place
      rw [Ram.Agrees, tracks.stale]
      exact left _ _ run f place
    have fill := fillDir_spec tracks.shows inv₁.core use agrees high other
    simp only [Succeeds, wp_bind, wp_pure] at fill ⊢
    refine wp_post fill fun _ u fill => wp_post fill fun _ u fill => wp_post fill fun _ u fill => wp_post fill ?_
    rintro _ u rfl
    refine ⟨trivial, s₁, tracks.toTracks, fun no => absurd no (Option.some_ne_none _), ?_⟩
    rintro _ ⟨⟩
    exact ⟨n, f, rfl, high, inv₁, use, other, rfl⟩

theorem createPageDir_event (fits : M.Addressable) (shows : Shows dir s t) (inv : PageInv M t) {p : Nat}
    (allowed : RamAllowed M s (.createPageDir p)) (tables : HasTables M t (.mallocPage .kernel s.cur 1))
    (left : RamTables M s (.createPageDir p)) :
    Corres (ramPerform M (.createPageDir p)) (pagePerform M (.mallocPage .kernel s.cur 1))
      (fun a b s' t' => a = b ∧ ∃ dir', Shows dir' s' t' ∧ Settles (.createPageDir p) a s s') s t := by
  obtain ⟨pos, dead⟩ := allowed
  refine corres_bind (createPageDir_corres fits shows inv tables left) ?_
  rintro r _ s₂ t₁ ⟨rfl, s₁, tracks, nothing, something⟩
  cases r with
  | none =>
    obtain rfl := nothing rfl
    refine corres_pure ⟨rfl, dir, tracks.shows, tracks.cur, fun q _ => by rw [tracks.pgdir], fun no => ?_⟩
    cases no
  | some v =>
    obtain ⟨n, f, rfl, high, inv₁, use, other, rfl⟩ := something v rfl
    have new := tracks.shows.new_dir inv₁.core fits use high other pos (by rw [tracks.pgdir]; exact dead)
    have settles : Settles (.createPageDir p) true s (s₁.adopt p n f) := by
      refine ⟨tracks.cur, fun q other => ?_, fun _ q same => ?_⟩
      · have ne : q ≠ p := fun same => other (by rw [same])
        rw [← tracks.pgdir]
        exact Function.update_of_ne ne ..
      · cases same
        have page : (s₁.adopt p n f).pgdir p = n * pgSize := Function.update_self ..
        rw [page]
        simp only [kHeapStart] at high
        omega
    refine corres_left (Q := fun _ u => u = { s₁ with bytes := s₁.dirBytes f, pgdir := Function.update s₁.pgdir p (n * pgSize) })
      ((wp_modify _).2 rfl) ?_
    rintro _ _ rfl
    refine corres_bind (S := fun _ _ s' t' => ∃ dir', Shows dir' s' t' ∧ Settles (.createPageDir p) true s s') ?_
      fun _ _ _ _ shows' => corres_pure ⟨rfl, shows'⟩
    refine (wp_modify _).2 ?_
    rw [onBooks, Succeeds, wp_zoom, wp_modify]
    exact ⟨_, new, settles⟩

/-- A step is matched by the call it is. -/
theorem event_corres (fits : M.Addressable) (shows : Shows dir s t) (inv : PageInv M t) {e : RamEvent} {c : PageEvent}
    (call : e.call s.cur = some c) (allowed : RamAllowed M s e) (tables : RamTables M s e) :
    Corres (ramPerform M e) (pagePerform M c) (fun a b s' t' => a = b ∧ ∃ dir', Shows dir' s' t' ∧ Settles e a s s') s t := by
  have page := RamAllowed.page shows allowed call
  have found := RamTables.page fits shows inv allowed tables call
  have same {a b : Bool} {s' : Ram} {t' : VM} (other : ∀ p, e ≠ .createPageDir p) (h : a = b ∧ Tracks dir s s' t') :
      a = b ∧ ∃ dir', Shows dir' s' t' ∧ Settles e a s s' :=
    ⟨h.1, dir, h.2.shows, h.2.cur, fun q _ => by rw [h.2.pgdir], fun _ p no => absurd no (other p)⟩
  cases e <;> cases call
  · exact createPageDir_event fits shows inv allowed found tables
  · exact corres_mono (malloc_event fits shows inv found) fun _ _ _ _ => same fun p => RamEvent.noConfusion
  · exact corres_mono (getAPage_event fits shows inv allowed found) fun _ _ _ _ => same fun p => RamEvent.noConfusion
  · exact corres_mono (getWithout_event fits shows inv.core page found) fun _ _ _ _ => same fun p => RamEvent.noConfusion
  · exact corres_mono (mfree_event shows inv allowed) fun _ _ _ _ => same fun p => RamEvent.noConfusion

end Zhenxiang.Paging
