import Zhenxiang.Lib.Corres
import Zhenxiang.Paging.Ram

/-! What the words of the page directories and page tables in memory have to do with the entries of VM, and
that one write keeps it. -/
namespace Zhenxiang.Paging
open Lib Kernel

/-- The word of an entry: present entries have all three flags. -/
def Shown (w : Nat) (e : Entry) : Prop :=
  frameOf w = e.addr ∧ (w % 2 = 1 ↔ e.present = true) ∧ (w % 2 = 1 → w % 8 = 7)

theorem shown_zero : Shown 0 ⟨0, false⟩ := ⟨rfl, by decide, by decide⟩

theorem or_seven {f : Nat} (aligned : f % 4096 = 0) : f ||| 7 = f + 7 := by
  have split := Nat.two_pow_add_eq_or_of_lt (show 7 < 2 ^ 3 by decide) (f / 8)
  rw [show 2 ^ 3 * (f / 8) = f by omega] at split
  exact split.symm

theorem shown_frame {f : Nat} (aligned : f % 4096 = 0) : Shown (f + 7) ⟨f, true⟩ :=
  ⟨frameOf_add aligned (by decide), by simp only [iff_true]; omega, by omega⟩

theorem Shown.absent {w : Nat} {e : Entry} (h : Shown w e) : Shown (w / 2 * 2) { e with present := false } := by
  obtain ⟨addr, -, -⟩ := h
  refine ⟨?_, ?_, ?_⟩
  · rw [← addr]
    unfold frameOf
    omega
  · simp only [Bool.false_eq_true, iff_false]
    omega
  · omega

theorem Shown.admits {w : Nat} {e : Entry} (h : Shown w e) (x : Access) : x.admits w = true ↔ e.present = true := by
  rw [← h.2.1]
  cases x
  · exact Access.admits_supervisor
  · rw [Access.admits_user]
    exact ⟨fun all => by omega, h.2.2⟩

theorem word_set (m : Buf) (a w : Nat) : word (blit m a 4 (ofWords fun _ => w)) a = w % 2 ^ 32 := by
  have first := word_ofWords (fun _ => w) 0
  rw [word_blit_in (Nat.le_refl a) (Nat.le_refl _), Nat.sub_self]
  exact first

theorem even_mod {w : Nat} (low : w < 2 ^ 32) : w / 2 * 2 % 2 ^ 32 = w / 2 * 2 := Nat.mod_eq_of_lt (by omega)

/-- There is a page table at b. -/
def TableAt (t : VM) (b : Nat) : Prop := (∃ i, 768 ≤ i ∧ i < 1023 ∧ b = kernelTable i) ∨ ∃ p i, Uses t (.table p i) b

/-- The tables apart, the two are in the same state. -/
def SameBooks (s : Ram) (t : VM) : Prop :=
  s.books = { t with pde := fun _ _ => ⟨0, false⟩, pte := fun _ _ => ⟨0, false⟩ }

/-- The page directory of the address space p is at dir p, and the window has never lost a page. -/
structure Shows (dir : Nat → Nat) (s : Ram) (t : VM) : Prop where
  books : SameBooks s t
  kernel : dir 0 = pageDirTablePos
  null : s.pgdir 0 = 0
  stale : ∀ e ∈ s.stale, e.1 < 0xffc00
  cr3 : s.cr3 = dir s.cur
  cur : s.Alive s.cur
  run : ∀ p, s.pgdir p ≠ 0 → t.runs none (s.pgdir p) = 1
  heap : ∀ p, s.pgdir p ≠ 0 → kHeapStart ≤ s.pgdir p ∧ s.pgdir p % pgSize = 0
  pages : ∀ p, s.pgdir p ≠ 0 → Uses t (.page none (s.pgdir p / pgSize)) (dir p)
  apart : ∀ p q, s.pgdir p ≠ 0 → s.pgdir p = s.pgdir q → p = q
  self : ∀ p, s.Alive p → SelfMapped s.bytes (dir p)
  pde : ∀ p i, s.Alive p → i < 1023 → (p = 0 → 768 ≤ i) → Shown (word s.bytes (dir p + 4 * i)) (t.pde p i)
  pte : ∀ b j, TableAt t b → j < 1024 → Shown (word s.bytes (b + 4 * j)) (t.pte b j)
  dead : ∀ p i, ¬ s.Alive p → i < 768 → t.pde p i = ⟨0, false⟩

/-- All frames have 32-bit addresses. -/
def Machine.Addressable (M : Machine) : Prop := M.uStart + M.uLen * pgSize ≤ 2 ^ 32

variable {M : Machine} {s : Ram} {t : VM} {dir : Nat → Nat}

/-! Page directories and page tables are in frames of their own. -/

theorem Marked.aligned {pf : PoolFlags} {f : Nat} (h : Marked M t pf f) : f % 4096 = 0 := by
  obtain ⟨i, -, rfl, -⟩ := h
  exact frame_mod pf i

theorem Marked.small (fits : M.Addressable) {pf : PoolFlags} {f : Nat} (h : Marked M t pf f) : f + 4096 ≤ 2 ^ 32 := by
  obtain ⟨i, hi, rfl, -⟩ := h
  have pools := M.pools
  unfold Machine.Addressable at fits
  cases pf <;> simp only [Machine.frame, Machine.poolStart, Machine.poolLen, kStart, pgSize] at * <;> omega

theorem PageCore.marked_table (core : PageCore M t) {p i b : Nat} (use : Uses t (.table p i) b) : Marked M t .kernel b := by
  rcases core.marked _ _ use with marked | ⟨_, _, no, _⟩
  · exact marked
  · cases no

theorem PageCore.tableAt_aligned (core : PageCore M t) {b : Nat} (h : TableAt t b) : b % 4096 = 0 := by
  rcases h with ⟨i, -, -, here⟩ | ⟨p, i, use⟩
  · rw [here, kernelTable, pgSize]
    omega
  · exact (core.marked_table use).aligned

theorem Shows.pos (shows : Shows dir s t) {p : Nat} (alive : s.pgdir p ≠ 0) : 0 < p := by
  rcases Nat.eq_zero_or_pos p with rfl | pos
  · exact absurd shows.null alive
  · exact pos

theorem Shows.dir_marked (shows : Shows dir s t) (core : PageCore M t) {p : Nat} (alive : s.pgdir p ≠ 0) :
    Marked M t .kernel (dir p) := by
  rcases core.marked _ _ (shows.pages p alive) with marked | ⟨n, low, same, -⟩
  · exact marked
  · have above := (shows.heap p alive).1
    have here := (Slot.page.inj same).2
    simp only [kHeapStart, pgSize] at above here
    omega

theorem Shows.dir_ge (shows : Shows dir s t) (core : PageCore M t) {p : Nat} (alive : s.Alive p) :
    dir p = pageDirTablePos ∧ p = 0 ∨ kStart ≤ dir p ∧ 0 < p := by
  rcases alive with rfl | alive
  · exact .inl ⟨shows.kernel, rfl⟩
  · exact .inr ⟨(shows.dir_marked core alive).ge, shows.pos alive⟩

theorem Shows.dir_aligned (shows : Shows dir s t) {p : Nat} (alive : s.Alive p) : dir p % 4096 = 0 :=
  (shows.self p alive).aligned

theorem Shows.dir_ne_table (shows : Shows dir s t) (core : PageCore M t) {p b : Nat} (alive : s.Alive p) (table : TableAt t b) :
    b ≠ dir p := by
  have here := shows.dir_ge core alive
  rcases table with ⟨i, low, high, place⟩ | ⟨q, i, use⟩
  · have below := kernelTable_lt high
    rw [← place] at below
    simp only [kernelTable, pageDirTablePos, kStart, pgSize] at *
    omega
  · have above := core.table_ge use
    rintro rfl
    rcases here with ⟨same, -⟩ | ⟨-, pos⟩
    · rw [same] at above
      exact absurd above (by decide)
    · have dead : s.pgdir p ≠ 0 := alive.resolve_left (by omega)
      have same := core.uniq _ _ _ use (shows.pages p dead) (by simp only [kStart] at above; omega)
      cases same

/-- Two address spaces have two page directories. -/
theorem Shows.dir_inj (shows : Shows dir s t) (core : PageCore M t) {p q : Nat} (alive : s.Alive p) (alive' : s.Alive q)
    (same : dir p = dir q) : p = q := by
  have here := shows.dir_ge core alive
  have there := shows.dir_ge core alive'
  simp only [pageDirTablePos, kStart] at here there
  rcases Nat.eq_zero_or_pos p with rfl | pos
  · omega
  · rcases Nat.eq_zero_or_pos q with rfl | pos'
    · omega
    · have ap := alive.resolve_left (by omega)
      have aq := alive'.resolve_left (by omega)
      have use := shows.pages q aq
      rw [← same] at use
      have pages := core.uniq _ _ _ (shows.pages p ap) use (by omega)
      have vp := (shows.heap p ap).2
      have vq := (shows.heap q aq).2
      simp only [Slot.page.injEq, true_and, pgSize] at pages vp vq
      exact shows.apart p q ap (by omega)

/-! One write. -/

/-- A frame that holds neither a page directory nor a page table can change. -/
theorem Shows.write_page (shows : Shows dir s t) (core : PageCore M t) {f : Nat} {r : Buf} (same : SameBut f s.bytes r)
    (no_dir : ∀ p, s.Alive p → dir p ≠ f) (no_table : ∀ b, TableAt t b → b ≠ f) :
    Shows dir { s with bytes := r } t where
  books := shows.books
  kernel := shows.kernel
  null := shows.null
  stale := shows.stale
  cr3 := shows.cr3
  cur := shows.cur
  run := shows.run
  heap := shows.heap
  pages := shows.pages
  apart := shows.apart
  self p alive := by
    refine ⟨shows.dir_aligned alive, ?_⟩
    rw [same.word (shows.dir_aligned alive) (no_dir p alive) (by decide)]
    exact (shows.self p alive).last
  pde p i alive low user := by
    rw [same.word (shows.dir_aligned alive) (no_dir p alive) (by omega)]
    exact shows.pde p i alive low user
  pte b j table low := by
    rw [same.word (core.tableAt_aligned table) (no_table b table) (by omega)]
    exact shows.pte b j table low
  dead := shows.dead

/-- An entry of a page table is written. -/
theorem Shows.write_pte (shows : Shows dir s t) (core : PageCore M t) {b j w : Nat} {e : Entry} (table : TableAt t b)
    (low : j < 1024) (shown : Shown (w % 2 ^ 32) e)
    (dirs : ∀ p, s.pgdir p ≠ 0 → Uses (t.setPte b j e) (.page none (s.pgdir p / pgSize)) (dir p)) :
    Shows dir { s with bytes := blit s.bytes (b + 4 * j) 4 (ofWords fun _ => w) } (t.setPte b j e) := by
  have aligned := core.tableAt_aligned table
  have same : SameBut b s.bytes (blit s.bytes (b + 4 * j) 4 (ofWords fun _ => w)) := sameBut_blit aligned (by omega)
  refine ⟨shows.books, shows.kernel, shows.null, shows.stale, shows.cr3, shows.cur, shows.run, shows.heap, dirs, shows.apart,
    fun p alive => ⟨shows.dir_aligned alive, ?_⟩, fun p i alive small user => ?_, fun c k table' small => ?_, shows.dead⟩
  · rw [same.word (shows.dir_aligned alive) (shows.dir_ne_table core alive table).symm (by decide)]
    exact (shows.self p alive).last
  · dsimp only
    rw [same.word (shows.dir_aligned alive) (shows.dir_ne_table core alive table).symm (by omega)]
    exact shows.pde p i alive small user
  · dsimp only [VM.setPte]
    by_cases here : c = b
    · subst here
      rw [Function.update_self]
      by_cases there : k = j
      · subst there
        rw [Function.update_self, word_set]
        exact shown
      · rw [Function.update_of_ne there, word_blit_out (by omega)]
        exact shows.pte c k table small
    · rw [Function.update_of_ne here, same.word (core.tableAt_aligned table') here (by omega)]
      exact shows.pte c k table' small

theorem TableAt.newTable {p i f b : Nat} (pos : 0 < p) (low : i < 768) (absent : (t.pde p i).present ≠ true)
    (unused : ∀ sl, ¬ Uses t sl f) (high : kStart ≤ f) (table : TableAt ((t.setPde p i ⟨f, true⟩).clearTable f) b) :
    b = f ∨ TableAt t b := by
  rcases table with here | ⟨q, k, use⟩
  · exact .inr (.inl here)
  · rcases (uses_newTable pos low absent unused high).1 use with old | ⟨-, same⟩
    · exact .inr (.inr ⟨q, k, old⟩)
    · exact .inl same

theorem Shows.dir_ne_unused (shows : Shows dir s t) {p f : Nat} (alive : s.Alive p) (unused : ∀ sl, ¬ Uses t sl f)
    (high : kStart ≤ f) : dir p ≠ f := by
  rintro rfl
  rcases alive with rfl | alive
  · rw [shows.kernel] at high
    exact absurd high (by decide)
  · exact unused _ (shows.pages p alive)

/-- A directory entry is written for a page table in a fresh frame, which is then cleared. -/
theorem Shows.new_table (shows : Shows dir s t) (core : PageCore M t) (fits : M.Addressable) {p i f : Nat} (pos : 0 < p)
    (alive : s.Alive p) (low : i < 768) (absent : (t.pde p i).present ≠ true) (marked : Marked M t .kernel f)
    (unused : ∀ sl, ¬ Uses t sl f) :
    Shows dir { s with bytes := blit (blit s.bytes (dir p + 4 * i) 4 (ofWords fun _ => f ||| 7)) f pgSize fun _ => 0 }
      ((t.setPde p i ⟨f, true⟩).clearTable f) := by
  have aligned := shows.dir_aligned alive
  have apart {q : Nat} (here : s.Alive q) : dir q ≠ f := shows.dir_ne_unused here unused marked.ge
  have first : SameBut (dir p) s.bytes (blit s.bytes (dir p + 4 * i) 4 (ofWords fun _ => f ||| 7)) :=
    sameBut_blit aligned (by omega)
  have second (m : Buf) : SameBut f m (blit m f pgSize fun _ => 0) := by
    have same := sameBut_blit (m := m) (r := fun _ => 0) marked.aligned (show 0 + pgSize ≤ 4096 by decide)
    rwa [Nat.add_zero] at same
  refine ⟨shows.books, shows.kernel, shows.null, shows.stale, shows.cr3, shows.cur, shows.run, shows.heap, fun q here => ?_, shows.apart,
    fun q here => ⟨shows.dir_aligned here, ?_⟩, fun q k here small user => ?_, fun b j table small => ?_, fun q k dead small => ?_⟩
  · exact (uses_newTable pos low absent unused marked.ge).2 (.inl (shows.pages q here))
  · dsimp only
    rw [(second _).word (shows.dir_aligned here) (apart here) (by decide)]
    have last := (shows.self q here).last
    by_cases same : q = p
    · subst same
      rwa [word_blit_out (by omega)]
    · have other : dir q ≠ dir p := fun eq => same (shows.dir_inj core here alive eq)
      rwa [first.word (shows.dir_aligned here) other (by decide)]
  · dsimp only
    rw [(second _).word (shows.dir_aligned here) (apart here) (by omega)]
    have old := shows.pde q k here small user
    by_cases same : q = p
    · subst same
      by_cases there : k = i
      · subst there
        have small := marked.small fits
        rw [word_set, or_seven marked.aligned, Nat.mod_eq_of_lt (by omega)]
        simpa only [VM.clearTable, VM.setPde, Function.update_self] using shown_frame marked.aligned
      · rw [word_blit_out (by omega)]
        simpa only [VM.clearTable, VM.setPde, Function.update_self, Function.update_of_ne there] using old
    · have other : dir q ≠ dir p := fun eq => same (shows.dir_inj core here alive eq)
      rw [first.word (shows.dir_aligned here) other (by omega)]
      simpa only [VM.clearTable, VM.setPde, Function.update_of_ne same] using old
  · dsimp only [VM.clearTable, VM.setPde]
    by_cases here : b = f
    · subst here
      have zero : word (blit (blit s.bytes (dir p + 4 * i) 4 (ofWords fun _ => b ||| 7)) b pgSize fun _ => 0) (b + 4 * j) = 0 := by
        rw [word_blit_in (by omega) (by simp only [pgSize]; omega)]
        rfl
      rw [Function.update_self, zero]
      exact shown_zero
    · have old := (table.newTable pos low absent unused marked.ge).resolve_left here
      have placed := core.tableAt_aligned old
      rw [Function.update_of_ne here, (second _).word placed here (by omega),
        first.word placed (shows.dir_ne_table core alive old) (by omega)]
      exact shows.pte b j old small
  · have other : q ≠ p := by
      rintro rfl
      exact dead alive
    simpa only [VM.clearTable, VM.setPde, Function.update_of_ne other] using shows.dead q k dead small

/-! Reading and writing through the active page directory. -/

theorem Shows.active (shows : Shows dir s t) : SelfMapped s.bytes s.cr3 := by
  rw [shows.cr3]
  exact shows.self s.cur shows.cur

section Access
variable {x : Access} {v a : Nat} {E : Fault → Prop}

/-- An access to v is one to a, whatever the TLB still holds. -/
structure Ram.Lands (s : Ram) (x : Access) (v a : Nat) : Prop where
  walk : pageWalk x s.bytes s.cr3 v = some a
  agrees : s.Agrees v a

/-- The TLB is right about the window. -/
theorem Shows.agrees (shows : Shows dir s t) (high : 0xffc00000 ≤ v) : s.Agrees v a := by
  intro e kept same
  have low := shows.stale e kept
  simp only [pgSize] at same
  omega

theorem Ram.wp_translate {Q : Nat → Ram → Prop} : wp (Ram.translate x v) Q E s ↔
    (∀ a, s.Lands x v a → Q a s) ∧ ((∀ a, ¬ s.Lands x v a) → E .undefined) := by
  rw [Ram.translate, wp_bind, wp_get, wp_bind, wp_get]
  cases place : pageWalk x s.bytes s.cr3 v with
  | none =>
    have nowhere (a : Nat) : ¬ s.Lands x v a := fun here => by
      rw [here.walk] at place
      cases place
    exact (wp_throw _).trans ⟨fun stops => ⟨fun a here => absurd here (nowhere a), fun _ => stops⟩, fun h => h.2 nowhere⟩
  | some b =>
    have only {a : Nat} : s.Lands x v a ↔ a = b ∧ s.Agrees v b := by
      constructor
      · rintro ⟨walk, agrees⟩
        obtain rfl := Option.some.inj (walk.symm.trans place)
        exact ⟨rfl, agrees⟩
      · rintro ⟨rfl, agrees⟩
        exact ⟨place, agrees⟩
    dsimp only
    rw [wp_bind, wp_get, wp_bind, wp_check, wp_pure]
    simp only [only, not_and, and_imp, forall_eq]

theorem Ram.wp_translate_of {Q : Nat → Ram → Prop} (here : s.Lands x v a) : wp (Ram.translate x v) Q E s ↔ Q a s := by
  have same {b : Nat} (there : s.Lands x v b) : b = a := Option.some.inj (there.walk.symm.trans here.walk)
  rw [Ram.wp_translate]
  constructor
  · exact fun h => h.1 a here
  · refine fun h => ⟨fun b there => ?_, fun no => absurd here (no a)⟩
    rwa [same there]

theorem Ram.wp_load {Q : Nat → Ram → Prop} (here : s.Lands .supervisor v a) :
    wp (Ram.load v) Q E s ↔ Q (word s.bytes a) s := by
  rw [Ram.load, wp_bind, Ram.wp_translate_of here, wp_bind, wp_get, wp_pure]

theorem Ram.wp_store {Q : Unit → Ram → Prop} {w : Nat} (here : s.Lands .supervisor v a) :
    wp (Ram.store v w) Q E s ↔ Q () { s with bytes := blit s.bytes a 4 (ofWords fun _ => w) } := by
  rw [Ram.store, wp_bind, Ram.wp_translate_of here, wp_modify]

theorem Ram.wp_loadByte {Q : UInt8 → Ram → Prop} (here : s.Lands .supervisor v a) :
    wp (Ram.loadByte v) Q E s ↔ Q (s.bytes a) s := by
  rw [Ram.loadByte, wp_bind, Ram.wp_translate_of here, wp_bind, wp_get, wp_pure]

theorem Ram.wp_storeByte {Q : Unit → Ram → Prop} {b : UInt8} (here : s.Lands x v a) :
    wp (Ram.storeByte x v b) Q E s ↔ Q () { s with bytes := Function.update s.bytes a b } := by
  rw [Ram.storeByte, wp_bind, Ram.wp_translate_of here, wp_modify]

/-- memset of a range that lies in one frame, which the tables of the range do not. -/
theorem memset_blit {dst size : Nat} {value : UInt8} (somewhere : dst ≠ 0)
    (here : ∀ j ≤ size, ∀ k < size, { s with bytes := blit s.bytes a j fun _ => value }.Lands .supervisor (dst + k) (a + k)) :
    Succeeds (Ram.memset dst value size) (fun _ u => u = { s with bytes := blit s.bytes a size fun _ => value }) s := by
  rw [Ram.memset, Succeeds, wp_bind, wp_assert]
  refine ⟨fun _ => ?_, fun no => no somewhere⟩
  refine wp_forRange (fun k u => u = { s with bytes := blit s.bytes a k fun _ => value }) ?_ ?_
  · rw [blit_none]
  · rintro k _ hk rfl
    rw [Ram.wp_storeByte (here k (by omega) k hk)]
    dsimp only
    rw [blit_next s.bytes (fun _ => value)]

theorem memcpy_blit {dst src size b : Nat} (somewhere : dst ≠ 0 ∧ src ≠ 0) (apart : b + size ≤ a ∨ a + size ≤ b)
    (here : ∀ j ≤ size, ∀ k < size, { s with bytes := blit s.bytes a j (slice s.bytes b) }.Lands .supervisor (dst + k) (a + k))
    (there : ∀ j ≤ size, ∀ k < size, { s with bytes := blit s.bytes a j (slice s.bytes b) }.Lands .supervisor (src + k) (b + k)) :
    Succeeds (Ram.memcpy dst src size) (fun _ u => u = { s with bytes := blit s.bytes a size (slice s.bytes b) }) s := by
  rw [Ram.memcpy, Succeeds, wp_bind, wp_assert]
  refine ⟨fun _ => ?_, fun no => no somewhere⟩
  refine wp_forRange (fun k u => u = { s with bytes := blit s.bytes a k (slice s.bytes b) }) ?_ ?_
  · rw [blit_none]
  · rintro k _ hk rfl
    let u : Ram := { s with bytes := blit s.bytes a k (slice s.bytes b) }
    have source : u.Lands .supervisor (src + k) (b + k) := there k (by omega) k hk
    have target : u.Lands .supervisor (dst + k) (a + k) := here k (by omega) k hk
    rw [wp_bind, Ram.wp_loadByte source, Ram.wp_storeByte target]
    have byte : u.bytes (b + k) = slice s.bytes b k := blit_of_not_mem (by omega)
    rw [byte, ← blit_next s.bytes (slice s.bytes b)]

end Access

/-- The word of the directory entry of an address. -/
theorem Shows.lands_pde (shows : Shows dir s t) {v : Nat} (small : v < 2 ^ 32) :
    s.Lands .supervisor (Ram.pdePtr v) (s.cr3 + 4 * pdeIdx v) := by
  have page := shows.active.last_page (x := .supervisor) (o := pdeIdx v * 4) (by simp only [pdeIdx]; omega)
  rw [Nat.mul_comm 4]
  exact ⟨page, shows.agrees (by simp only [Ram.pdePtr]; omega)⟩

/-- The addresses whose tables VM speaks of: not the window, and for kernel threads the kernel's half only. -/
structure Mine (cur v : Nat) : Prop where
  below : v < 0xffc00000
  kernel : cur = 0 → 0xc0000000 ≤ v

theorem Shows.pde_shown (shows : Shows dir s t) {v : Nat} (mine : Mine s.cur v) :
    Shown (word s.bytes (s.cr3 + 4 * pdeIdx v)) (t.pde s.cur (pdeIdx v)) := by
  have below := mine.below
  rw [shows.cr3]
  refine shows.pde s.cur (pdeIdx v) shows.cur (by simp only [pdeIdx]; omega) fun kernel => ?_
  have above := mine.kernel kernel
  simp only [pdeIdx]
  omega

/-- The kernel's half of every page directory is that of the kernel. -/
def KernelHalf (t : VM) : Prop := ∀ p i, 768 ≤ i → i < 1023 → t.pde p i = ⟨kernelTable i, true⟩

theorem KernelHalf.tableAt (half : KernelHalf t) {p v : Nat} (mine : Mine p v)
    (present : (t.pde p (pdeIdx v)).present = true) : TableAt t (t.pde p (pdeIdx v)).addr := by
  have below := mine.below
  by_cases kernel : 0xc0000000 ≤ v
  · refine .inl ⟨pdeIdx v, by simp only [pdeIdx]; omega, by simp only [pdeIdx]; omega, ?_⟩
    rw [half _ _ (by simp only [pdeIdx]; omega) (by simp only [pdeIdx]; omega)]
  · refine .inr ⟨p, pdeIdx v, Nat.pos_of_ne_zero fun zero => kernel (mine.kernel zero), by simp only [pdeIdx]; omega, ?_⟩
    rw [← present]

/-- The word of the page table entry, where there is a page table. -/
theorem Shows.walk_pte (shows : Shows dir s t) {v : Nat} (mine : Mine s.cur v) :
    pageWalk .supervisor s.bytes s.cr3 (Ram.ptePtr v) = if (t.pde s.cur (pdeIdx v)).present = true then
      some ((t.pde s.cur (pdeIdx v)).addr + 4 * pteIdx v) else none := by
  have below := mine.below
  have window := shows.active.window (x := .supervisor) (i := pdeIdx v) (o := pteIdx v * 4)
    (by simp only [pdeIdx]; omega) (by simp only [pteIdx]; omega)
  have shown := shows.pde_shown mine
  simp only [shown.admits, shown.1, Nat.mul_comm (pteIdx v)] at window
  rw [← window, Nat.mul_comm 4]
  rfl

theorem Shows.lands_pte (shows : Shows dir s t) {v : Nat} (mine : Mine s.cur v) (present : (t.pde s.cur (pdeIdx v)).present = true) :
    s.Lands .supervisor (Ram.ptePtr v) ((t.pde s.cur (pdeIdx v)).addr + 4 * pteIdx v) := by
  have place := shows.walk_pte mine
  rw [if_pos present] at place
  refine ⟨place, shows.agrees ?_⟩
  simp only [Ram.ptePtr]
  omega

theorem Shows.pte_shown (shows : Shows dir s t) (half : KernelHalf t) {v : Nat} (mine : Mine s.cur v)
    (present : (t.pde s.cur (pdeIdx v)).present = true) :
    Shown (word s.bytes ((t.pde s.cur (pdeIdx v)).addr + 4 * pteIdx v)) (t.pte (t.pde s.cur (pdeIdx v)).addr (pteIdx v)) :=
  shows.pte _ _ (half.tableAt mine present) (Nat.mod_lt _ (by decide))

end Zhenxiang.Paging
