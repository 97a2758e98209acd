import Zhenxiang.Paging.RamShows

/-! The functions on memory go the way of those on VM. -/
namespace Zhenxiang.Paging
open Lib Kernel

variable {M : Machine} {s : Ram} {t : VM} {dir : Nat → Nat}

/-! The bitmaps. -/

/-- The bitmaps of VM alone. -/
def VM.blank (t : VM) : VM := { t with pde := fun _ _ => ⟨0, false⟩, pte := fun _ _ => ⟨0, false⟩ }

/-- A computation that neither looks at page tables nor changes them. -/
def Blind {α : Type} (c : Kern VM α) : Prop :=
  ∀ t : VM, Corres c c (fun a b u v => a = b ∧ u = v.blank ∧ v.pde = t.pde ∧ v.pte = t.pte ∧ v.runs = t.runs) t.blank t

/-- The state after a call of the active task, in the same page directories. -/
structure Tracks (dir : Nat → Nat) (s s' : Ram) (t' : VM) : Prop where
  cur : s'.cur = s.cur
  pgdir : s'.pgdir = s.pgdir
  shows : Shows dir s' t'

theorem Tracks.trans {s₁ s₂ : Ram} {t₁ t₂ : VM} (first : Tracks dir s s₁ t₁) (h : Tracks dir s₁ s₂ t₂) : Tracks dir s s₂ t₂ :=
  ⟨h.cur.trans first.cur, h.pgdir.trans first.pgdir, h.shows⟩

theorem Shows.tracks (shows : Shows dir s t) : Tracks dir s s t := ⟨rfl, rfl, shows⟩

/-- The call has cleared no entry. -/
structure Keeps (dir : Nat → Nat) (s s' : Ram) (t' : VM) : Prop extends Tracks dir s s' t' where
  stale : s'.stale = s.stale

theorem Keeps.trans {s₁ s₂ : Ram} {t₁ t₂ : VM} (first : Keeps dir s s₁ t₁) (h : Keeps dir s₁ s₂ t₂) : Keeps dir s s₂ t₂ :=
  ⟨first.toTracks.trans h.toTracks, h.stale.trans first.stale⟩

theorem Shows.keeps (shows : Shows dir s t) : Keeps dir s s t := ⟨shows.tracks, rfl⟩

/-- Other bitmaps over the same tables. -/
theorem Shows.rebook (shows : Shows dir s t) {u : Ram} {v : VM} (books : SameBooks u v) (bytes : u.bytes = s.bytes)
    (cr3 : u.cr3 = s.cr3) (cur : u.cur = s.cur) (pgdir : u.pgdir = s.pgdir) (stale : u.stale = s.stale) (pde : v.pde = t.pde)
    (pte : v.pte = t.pte) (runs : v.runs = t.runs) : Shows dir u v := by
  have uses {sl : Slot} {f : Nat} : Uses v sl f ↔ Uses t sl f := uses_congr pde pte
  have alive {p : Nat} : u.Alive p ↔ s.Alive p := by rw [Ram.Alive, pgdir, Ram.Alive]
  have tables {b : Nat} : TableAt v b ↔ TableAt t b := by simp only [TableAt, uses]
  refine ⟨books, shows.kernel, by rw [pgdir, shows.null], by rw [stale]; exact shows.stale, by rw [cr3, cur, shows.cr3],
    by rw [cur]; exact alive.2 shows.cur, ?_, ?_, ?_, ?_, fun p here => by rw [bytes]; exact shows.self p (alive.1 here),
    fun p i here => ?_, fun b j table => ?_, fun p i dead => ?_⟩
  · rw [pgdir, runs]
    exact shows.run
  · rw [pgdir]
    exact shows.heap
  · rw [pgdir]
    exact fun p here => uses.2 (shows.pages p here)
  · rw [pgdir]
    exact shows.apart
  · rw [bytes, pde]
    exact shows.pde p i (alive.1 here)
  · rw [bytes, pte]
    exact shows.pte b j (tables.1 table)
  · rw [pde]
    exact shows.dead p i fun here => dead (alive.2 here)

/-- More pages that the TLB may still hold. -/
theorem Shows.restale (shows : Shows dir s t) {stale : List (Nat × Nat)} (low : ∀ e ∈ stale, e.1 < 0xffc00) :
    Shows dir { s with stale } t :=
  { shows with stale := low }

theorem Blind.corres {α : Type} {c : Kern VM α} (blind : Blind c) (shows : Shows dir s t) :
    Corres (onBooks c) c (fun a b s' t' => a = b ∧ Keeps dir s s' t' ∧ s'.bytes = s.bytes ∧
      t'.pde = t.pde ∧ t'.pte = t.pte ∧ t'.runs = t.runs) s t := by
  have books : s.books = t.blank := shows.books
  rcases corres_iff.1 (blind t) with ⟨a, u, b, v, run, run', rfl, rfl, pde, pte, runs⟩ | ⟨e, stops, stops'⟩
  · rw [← books] at run
    refine corres_iff.2 (.inl ⟨a, s.setBooks v.blank, a, v, ?_, run', rfl, ⟨⟨rfl, rfl, ?_⟩, rfl⟩, rfl, pde, pte, runs⟩)
    · simp only [onBooks, zoom, run]
    · exact shows.rebook rfl rfl rfl rfl rfl rfl pde pte runs
  · rw [← books] at stops
    exact corres_iff.2 (.inr ⟨e, by simp only [onBooks, zoom, stops], stops'⟩)

theorem blind_setPool (pf : PoolFlags) (i : Nat) (value : Bool) : Blind (modify fun s => s.setPool pf i value) := by
  intro t
  refine corres_modify ?_
  cases pf <;> exact ⟨rfl, rfl, rfl, rfl, rfl⟩

theorem blind_palloc (pf : PoolFlags) : Blind (palloc M pf) := by
  intro t
  have scan : M.scanPool t.blank pf = M.scanPool t pf := by cases pf <;> rfl
  unfold palloc
  refine corres_get_left (corres_get_right ?_)
  rw [scan]
  cases M.scanPool t pf with
  | none => exact corres_pure ⟨rfl, rfl, rfl, rfl, rfl⟩
  | some i =>
    refine corres_bind (blind_setPool pf i true t) ?_
    exact fun _ _ _ _ same => corres_pure ⟨rfl, same.2⟩

theorem blind_reserve (pf : PoolFlags) (p i cnt : Nat) (value : Bool) :
    Blind (modify fun s => s.reserve pf p i cnt value) := by
  intro t
  refine corres_modify ?_
  cases pf <;> exact ⟨rfl, rfl, rfl, rfl, rfl⟩

theorem blind_pfree (f : Nat) : Blind (pfree M f) := fun t =>
  corres_ite Iff.rfl (fun _ => blind_setPool .user _ false t) fun _ => blind_setPool .kernel _ false t

theorem blind_vaddrRemove (pf : PoolFlags) (p vaddr pgCnt : Nat) : Blind (vaddrRemove pf p vaddr pgCnt) := by
  cases pf with
  | kernel => exact blind_reserve .kernel p _ pgCnt false
  | user => exact blind_reserve .user p _ pgCnt false

theorem blind_vaddrGet (pf : PoolFlags) (p cnt : Nat) : Blind (vaddrGet M pf p cnt) := by
  intro t
  cases pf with
  | kernel =>
    refine corres_get_left (corres_get_right ?_)
    rw [show t.blank.kernelVaddr = t.kernelVaddr from rfl]
    cases M.scan t.kernelVaddr M.kLen cnt with
    | none => exact corres_pure ⟨rfl, rfl, rfl, rfl, rfl⟩
    | some i =>
      refine corres_bind (blind_reserve .kernel p i cnt true t) ?_
      exact fun _ _ _ _ same => corres_pure ⟨rfl, same.2⟩
  | user =>
    refine corres_get_left (corres_get_right ?_)
    rw [show t.blank.userVaddr = t.userVaddr from rfl]
    cases M.scan (t.userVaddr p) (userVaddrLen p) cnt with
    | none => exact corres_pure ⟨rfl, rfl, rfl, rfl, rfl⟩
    | some i =>
      refine corres_bind (blind_reserve .user p i cnt true t) fun _ _ _ _ same => ?_
      exact corres_bind (corres_check Iff.rfl fun _ => same.2) fun _ _ _ _ same => corres_pure ⟨rfl, same⟩

/-! page_table_add. -/

theorem Reserved.mine {pf : PoolFlags} {p n o : Nat} (res : Reserved M t (half p pf) n) (ho : o < pgSize) :
    Mine p (n * pgSize + o) := by
  simp only [pgSize] at *
  rcases res.bounds with ⟨-, low, high⟩ | ⟨-, pos, high⟩
  · exact ⟨by omega, fun _ => by omega⟩
  · exact ⟨by omega, fun zero => by omega⟩

/-- The entry of an address is in the table of its page. -/
theorem PageCore.entry_of (core : PageCore M t) {pf : PoolFlags} {p n off : Nat} (ho : off < pgSize)
    (res : Reserved M t (half p pf) n) (present : (t.pde p (pdeIdx (n * pgSize + off))).present = true) :
    Backed t (half p pf) n ∧ (t.pde p (pdeIdx (n * pgSize + off))).addr = tableOf t (half p pf) n ∧
      pteIdx (n * pgSize + off) = n % 1024 := by
  rw [pdeIdx_page ho] at present ⊢
  refine ⟨?_, ?_, pteIdx_page ho⟩
  · rcases res.bounds with ⟨rfl, low, high⟩ | ⟨rfl, pos, high⟩
    · exact ⟨by omega, high⟩
    · exact ⟨pos, high, present⟩
  · rcases res.bounds with ⟨rfl, low, high⟩ | ⟨rfl, pos, high⟩
    · rw [core.kernel_pde p (n / 1024) (by omega) (by omega)]
      rfl
    · rfl

theorem corres_load {α β : Type} {v a : Nat} {f : Nat → Kern Ram α} {d : Kern VM β} {R : α → β → Ram → VM → Prop}
    (here : s.Lands .supervisor v a) (rest : Corres (f (word s.bytes a)) d R s t) :
    Corres (Ram.load v >>= f) d R s t := by
  refine corres_left (Q := fun w s' => w = word s.bytes a ∧ s' = s) ((Ram.wp_load here).2 ⟨rfl, rfl⟩) ?_
  rintro _ _ ⟨rfl, rfl⟩
  exact rest

theorem corres_store {v a w : Nat} {g : VM → VM} {R : Unit → PUnit → Ram → VM → Prop}
    (here : s.Lands .supervisor v a)
    (rel : R () ⟨⟩ { s with bytes := blit s.bytes a 4 (ofWords fun _ => w) } (g t)) :
    Corres (Ram.store v w) (modify g) R s t :=
  (wp_modify _).2 ((Ram.wp_store here).2 rel)

/-- The entry of a page is changed where no page directory is mapped. The bitmap of the pool need not show the page
any more. -/
theorem Shows.entry_corres (shows : Shows dir s t) {u : VM} (core : PageCore M u) (pde : t.pde = u.pde) (pte : t.pte = u.pte)
    (runs : t.runs = u.runs) {pf : PoolFlags} {n off w : Nat} {e : Entry} (ho : off < pgSize) (res : Reserved M u (half s.cur pf) n)
    (present : (t.pde s.cur (pdeIdx (n * pgSize + off))).present = true)
    (other : ∀ q, s.pgdir q ≠ 0 → Slot.page none (s.pgdir q / pgSize) ≠ .page (half s.cur pf) n)
    (shown : Shown (w % 2 ^ 32) e) {g : VM → VM}
    (set : g t = t.setPte (t.pde s.cur (pdeIdx (n * pgSize + off))).addr (pteIdx (n * pgSize + off)) e) :
    Corres (Ram.store (Ram.ptePtr (n * pgSize + off)) w) (modify g)
      (fun _ _ s' t' => Keeps dir s s' t') s t := by
  have mine := res.mine ho
  have place := shows.lands_pte mine present
  rw [pde] at present
  obtain ⟨backed, table, idx⟩ := core.entry_of ho res present
  have old : Shows dir (s.setBooks u.blank) u := shows.rebook rfl rfl rfl rfl rfl rfl pde.symm pte.symm runs.symm
  have low : pteIdx (n * pgSize + off) < 1024 := Nat.mod_lt _ (by decide)
  have new := old.write_pte core (KernelHalf.tableAt core.kernel_pde mine present) low shown fun q alive => by
    rw [table, idx]
    exact (core.uses_setPte backed).2 (.inr ⟨other q alive, old.pages q alive⟩)
  refine corres_store place ?_
  rw [set]
  refine ⟨⟨rfl, rfl, new.rebook shows.books ?_ rfl rfl rfl rfl pde ?_ runs⟩, rfl⟩
  · rw [pde]
    rfl
  · simp only [VM.setPte, pde, pte]

/-- The end of page_table_add: the entry must be absent, and is written. -/
theorem Shows.map_corres (shows : Shows dir s t) (core : PageCore M t) (fits : M.Addressable) {pf : PoolFlags} {n off f : Nat}
    (ho : off < pgSize) (res : Reserved M t (half s.cur pf) n) (marked : Marked M t pf f)
    (present : (t.pde s.cur (pdeIdx (n * pgSize + off))).present = true) :
    Corres
      (do
        let e ← Ram.load (Ram.ptePtr (n * pgSize + off))
        assert (e % 2 = 0)
        Ram.store (Ram.ptePtr (n * pgSize + off)) (f ||| 7))
      (do
        assert (((← get).pte (t.pde s.cur (pdeIdx (n * pgSize + off))).addr (pteIdx (n * pgSize + off))).present = false)
        modify fun s' => s'.setPte (t.pde s.cur (pdeIdx (n * pgSize + off))).addr (pteIdx (n * pgSize + off)) ⟨f, true⟩)
      (fun _ _ s' t' => Keeps dir s s' t') s t := by
  have mine := res.mine ho
  obtain ⟨-, table, idx⟩ := core.entry_of ho res present
  have place := shows.lands_pte mine present
  have shown := shows.pte_shown core.kernel_pde mine present
  refine corres_load place (corres_get_right ?_)
  refine corres_check_bind ?_ fun absent => ?_
  · have flag := shown.2.1
    rw [← Bool.not_eq_true, ← flag]
    omega
  · refine shows.entry_corres core rfl rfl rfl ho res present ?_ ?_ rfl
    · intro q alive same
      have use := shows.pages q alive
      rw [same] at use
      rw [table, idx, (uses_page.1 use).2] at absent
      cases absent
    · have small := marked.small fits
      rw [or_seven marked.aligned, Nat.mod_eq_of_lt (by omega)]
      exact shown_frame marked.aligned

theorem ptePtr_page (v : Nat) : Ram.ptePtr v / pgSize * pgSize = 0xffc00000 + pdeIdx v * 4096 := by
  simp only [Ram.ptePtr, pteIdx, pdeIdx, pgSize]
  omega

/-- The new page table is seen in the window as soon as its directory entry is written. -/
theorem Shows.clear_table (shows : Shows dir s t) (fits : M.Addressable) {v g : Nat} (low : v < 0xc0000000)
    (marked : Marked M t .kernel g) (unused : ∀ sl, ¬ Uses t sl g) {m : Buf}
    (set : m = blit s.bytes (s.cr3 + 4 * pdeIdx v) 4 (ofWords fun _ => g ||| 7)) :
    Succeeds (Ram.memset (Ram.ptePtr v / pgSize * pgSize) 0 pgSize)
      (fun _ u => u = { s with bytes := blit m g pgSize fun _ => 0 }) { s with bytes := m } := by
  have active := shows.active
  have small := marked.small fits
  have aligned := marked.aligned
  have idx : pdeIdx v < 768 := by
    simp only [pdeIdx]
    omega
  have apart : s.cr3 ≠ g := by
    rw [shows.cr3]
    exact shows.dir_ne_unused shows.cur unused marked.ge
  rw [ptePtr_page]
  have somewhere : 0xffc00000 + pdeIdx v * 4096 ≠ 0 := by omega
  refine memset_blit (s := { s with bytes := m }) (a := g) somewhere fun j hj k hk => ?_
  have same : SameBut g m (blit m g j fun _ => 0) := by
    have within := sameBut_blit (m := m) (r := fun _ => 0) aligned (show 0 + j ≤ 4096 from by simpa only [Nat.zero_add, pgSize] using hj)
    rwa [Nat.add_zero] at within
  have entry : word (blit m g j fun _ => 0) (s.cr3 + 4 * pdeIdx v) = g + 7 := by
    rw [same.word active.aligned apart (by omega), set, word_set, or_seven aligned, Nat.mod_eq_of_lt (by omega)]
  have self : SelfMapped (blit m g j fun _ => 0) s.cr3 := by
    refine ⟨active.aligned, ?_⟩
    rw [same.word active.aligned apart (by decide), set, word_blit_out (by omega)]
    exact active.last
  have window := self.window (x := .supervisor) (i := pdeIdx v) (o := k) (by omega) hk
  rw [entry, if_pos (Access.admits_supervisor.2 (by omega)), frameOf_add aligned (by decide)] at window
  exact ⟨window, shows.agrees (by omega)⟩

theorem PageCore.newTable (core : PageCore M t) {p i f : Nat} (pos : 0 < p) (low : i < 768)
    (absent : (t.pde p i).present ≠ true) (marked : Marked M t .kernel f) (unused : ∀ sl, ¬ Uses t sl f) :
    PageCore M ((t.setPde p i ⟨f, true⟩).clearTable f) := by
  refine core.add (x := .table p i) (f := f) ?_ ⟨rfl, rfl, rfl⟩ (fun pf g hg => ?_)
    (fun sl g hg => (uses_newTable pos low absent unused marked.ge).1 hg) ?_ unused ?_
  · intro q k high
    by_cases same : q = p
    · subst same
      have other : k ≠ i := by omega
      simp [VM.clearTable, VM.setPde, other]
    · simp [VM.clearTable, VM.setPde, same]
  · obtain ⟨j, hj, place, bit⟩ := hg
    exact ⟨j, hj, place, by cases pf <;> exact bit⟩
  · obtain ⟨j, hj, place, bit⟩ := marked
    exact ⟨j, hj, place, bit⟩
  · rintro h m ⟨⟩

theorem pageTableAdd_corres (shows : Shows dir s t) (core : PageCore M t) (fits : M.Addressable) {pf : PoolFlags} {n off f : Nat}
    (ho : off < pgSize) (res : Reserved M t (half s.cur pf) n) (marked : Marked M t pf f)
    (found : TableFound M t s.cur (n * pgSize + off)) :
    Corres (Ram.pageTableAdd M (n * pgSize + off) f) (pageTableAdd M s.cur (n * pgSize + off) f)
      (fun _ _ s' t' => Keeps dir s s' t') s t := by
  have mine := res.mine ho
  have shown := shows.pde_shown mine
  have below := mine.below
  unfold Ram.pageTableAdd pageTableAdd
  refine corres_load (shows.lands_pde (by omega)) (corres_get_right ?_)
  refine corres_ite shown.2.1 (fun present => ?_) fun absent => ?_
  · exact shows.map_corres core fits ho res marked present
  · -- only a process can lack a page table
    obtain ⟨rfl, pos, high⟩ : pf = .user ∧ 0 < s.cur ∧ n < 0xc0000 := by
      rcases res.bounds with ⟨rfl, low, high⟩ | user
      · rw [pdeIdx_page ho, core.kernel_pde _ _ (by omega) (by omega)] at absent
        exact (absent rfl).elim
      · exact user
    refine corres_bind (((blind_palloc .kernel).corres shows).ensures (palloc_spec core .kernel).returns) ?_
    rintro r _ s₁ t₁ ⟨⟨rfl, tracks, -⟩, post, -⟩
    obtain ⟨g, rfl, core₁, marked₁, unused₁, virt, pde, pte, -, marks⟩ := post.resolve_left fun no =>
      found.elim absent fun scan => scan no.2.2
    have shows₁ := tracks.shows
    have cur := tracks.cur
    rw [← cur] at mine pos res absent ⊢
    rw [← pde] at absent
    have idx : pdeIdx (n * pgSize + off) < 768 := by
      rw [pdeIdx_page ho]
      omega
    refine corres_left (Q := fun _ u => u = { s₁ with bytes := blit s₁.bytes (s₁.cr3 + 4 * pdeIdx (n * pgSize + off)) 4 (ofWords fun _ => g ||| 7) })
      ((Ram.wp_store (shows₁.lands_pde (by omega))).2 rfl) ?_
    rintro _ _ rfl
    refine corres_left (shows₁.clear_table fits (by simp only [pgSize] at *; omega) marked₁ unused₁ rfl) ?_
    rintro _ _ rfl
    refine corres_right (Q := fun _ u => u = t₁.setPde s₁.cur (pdeIdx (n * pgSize + off)) ⟨g, true⟩) ((wp_modify _).2 rfl) ?_
    rintro _ _ rfl
    refine corres_right (Q := fun _ u => u = (t₁.setPde s₁.cur (pdeIdx (n * pgSize + off)) ⟨g, true⟩).clearTable g) ((wp_modify _).2 rfl) ?_
    rintro _ _ rfl
    have shows₂ := shows₁.new_table core₁ fits pos shows₁.cur idx absent marked₁ unused₁
    have core₂ := core₁.newTable pos idx absent marked₁ unused₁
    rw [← shows₁.cr3] at shows₂
    have entry : ((t₁.setPde s₁.cur (pdeIdx (n * pgSize + off)) ⟨g, true⟩).clearTable g).pde s₁.cur
        (pdeIdx (n * pgSize + off)) = ⟨g, true⟩ := by
      simp [VM.clearTable, VM.setPde]
    have res₂ : Reserved M ((t₁.setPde s₁.cur (pdeIdx (n * pgSize + off)) ⟨g, true⟩).clearTable g) (half s₁.cur .user) n :=
      virt.reserved.2 res
    have marked₂ : Marked M ((t₁.setPde s₁.cur (pdeIdx (n * pgSize + off)) ⟨g, true⟩).clearTable g) .user f := by
      obtain ⟨i, hi, place, bit⟩ := marks _ _ marked
      exact ⟨i, hi, place, bit⟩
    have map := shows₂.map_corres core₂ fits ho res₂ marked₂ (by rw [entry])
    rw [entry] at map
    exact corres_mono map fun _ _ _ _ last => tracks.trans ⟨⟨last.cur, last.pgdir, last.shows⟩, last.stale⟩

/-! malloc_page and its relatives. -/

/-- What palloc leaves when it finds a frame. -/
theorem palloc_corres (shows : Shows dir s t) (core : PageCore M t) (pf : PoolFlags) :
    Corres (onBooks (palloc M pf)) (palloc M pf) (fun a b s' t' => a = b ∧ Keeps dir s s' t' ∧ s'.bytes = s.bytes ∧
      palloc M pf t = .ok (b, t') ∧ ∀ f, b = some f → PageCore M t' ∧ Marked M t' pf f ∧ (∀ sl, ¬ Uses t' sl f) ∧
        SameVirt t t' ∧ t'.pde = t.pde ∧ t'.pte = t.pte ∧ (pf = .user → t'.kernelPool = t.kernelPool)) s t := by
  refine corres_mono (((blind_palloc pf).corres shows).ensures (palloc_spec core pf).returns) ?_
  rintro a b s' t' ⟨⟨rfl, tracks, bytes, -⟩, post, run⟩
  refine ⟨rfl, tracks, bytes, run, ?_⟩
  rintro f rfl
  rcases post with ⟨no, -⟩ | ⟨g, found, core', marked, unused, virt, pde, pte, kernel, -⟩
  · cases no
  · cases found
    exact ⟨core', marked, unused, virt, pde, pte, kernel⟩

theorem mapPages_corres (fits : M.Addressable) {pf : PoolFlags} (cnt : Nat) : ∀ n s t, Shows dir s t → PageCore M t →
    (∀ k < cnt, Reserved M t (half s.cur pf) (n + k)) → (∀ k < cnt, ∀ g, ¬ Uses t (.page (half s.cur pf) (n + k)) g) →
    TablesFound M pf s.cur cnt (n * pgSize) t →
    Corres (Ram.mapPages M pf cnt (n * pgSize)) (mapPages M pf s.cur cnt (n * pgSize))
      (fun a b s' t' => a = b ∧ Keeps dir s s' t') s t := by
  induction cnt with
  | zero => exact fun n s t shows _ _ _ _ => corres_pure ⟨rfl, shows.keeps⟩
  | succ cnt ih =>
    intro n s t shows core res free found
    rw [Ram.mapPages, mapPages]
    refine corres_bind (palloc_corres shows core pf) ?_
    rintro r _ s₁ t₁ ⟨rfl, tracks, -, run, post⟩
    cases r with
    | none => exact corres_pure ⟨rfl, tracks⟩
    | some f =>
      obtain ⟨core₁, marked, unused, virt, pde, pte, -⟩ := post f rfl
      obtain ⟨table, rest⟩ := found f t₁ run
      have uses {sl : Slot} {g : Nat} : Uses t₁ sl g ↔ Uses t sl g := uses_congr pde pte
      rw [← tracks.cur] at res free table rest ⊢
      have here : Reserved M t₁ (half s₁.cur pf) n := virt.reserved.2 (res 0 (by omega))
      have free₁ (g : Nat) : ¬ Uses t₁ (.page (half s₁.cur pf) n) g := fun use => free 0 (by omega) g (uses.1 use)
      rw [← Nat.add_zero (n * pgSize)] at table
      have add := (pageTableAdd_corres tracks.shows core₁ fits (by decide) here marked table).ensures
        (pageTableAdd_spec core₁ (by decide) here marked unused free₁ table).returns
      rw [Nat.add_zero] at add
      refine corres_bind add ?_
      rintro _ _ s₂ t₂ ⟨tracks₂, ⟨core₂, ext, -⟩, run₂⟩
      have step : n * pgSize + pgSize = (n + 1) * pgSize := by rw [Nat.succ_mul]
      have next (k : Nat) : n + 1 + k = n + (k + 1) := by omega
      have found₂ := rest t₂ run₂
      rw [step] at found₂ ⊢
      rw [← tracks₂.cur] at res free found₂ ⊢
      refine corres_mono (ih (n + 1) s₂ t₂ tracks₂.shows core₂ ?_ ?_ found₂) ?_
      · intro k hk
        rw [next]
        exact ext.virt.reserved.2 (virt.reserved.2 (res (k + 1) (by omega)))
      · intro k hk
        rw [next]
        refine ext.unused (fun g use => free (k + 1) (by omega) g (uses.1 use)) fun same => ?_
        simp only [Slot.page.injEq] at same
        omega
      · rintro a b s' t' ⟨same, last⟩
        exact ⟨same, tracks.trans (tracks₂.trans last)⟩

theorem mallocPage_corres (fits : M.Addressable) (shows : Shows dir s t) (inv : PageInv M t) {pf : PoolFlags} {cnt : Nat}
    (tables : HasTables M t (.mallocPage pf s.cur cnt)) :
    Corres (Ram.mallocPage M pf cnt) (mallocPage M pf s.cur cnt) (fun a b s' t' => a = b ∧ Keeps dir s s' t') s t := by
  unfold Ram.mallocPage mallocPage
  refine corres_check_bind Iff.rfl fun _ => ?_
  refine corres_get_left (corres_bind (((blind_vaddrGet pf s.cur cnt).corres shows).ensures (vaddrGet_spec pf s.cur cnt)) ?_)
  rintro r _ s₁ t₁ ⟨⟨rfl, tracks, -⟩, post, run⟩
  cases r with
  | none => exact corres_pure ⟨rfl, tracks⟩
  | some v =>
    obtain ⟨n, place, got⟩ := post.resolve_left (Option.some_ne_none v)
    cases place
    obtain ⟨core, free⟩ := got.unmapped inv.core
    have taken := got.taken
    have found := tables _ _ run
    rw [← tracks.cur] at taken free found ⊢
    refine corres_bind (mapPages_corres fits cnt n s₁ t₁ tracks.shows core taken free found) ?_
    rintro b _ s₂ t₂ ⟨rfl, last⟩
    refine corres_ite Iff.rfl (fun _ => ?_) fun _ => ?_
    · exact corres_pure ⟨rfl, tracks.trans last⟩
    · exact corres_pure ⟨rfl, tracks.trans last⟩

/-- Kernel pages need no new page table. -/
theorem TableFound.after {pf : PoolFlags} {p n off : Nat} (found : TableFound M t p (n * pgSize + off)) (ho : off < pgSize)
    (res : Reserved M t (half p pf) n) {u : VM} (core : PageCore M u) (pde : u.pde = t.pde)
    (kernel : pf = .user → u.kernelPool = t.kernelPool) : TableFound M u p (n * pgSize + off) := by
  rcases found with present | scan
  · exact .inl (by rwa [pde])
  · rcases res.bounds with ⟨rfl, low, high⟩ | ⟨rfl, -, -⟩
    · refine .inl ?_
      rw [pdeIdx_page ho, core.kernel_pde p (n / 1024) (by omega) (by omega)]
    · refine .inr ?_
      rwa [Machine.scanPool, kernel rfl]

theorem getWithout_corres (fits : M.Addressable) (shows : Shows dir s t) (core : PageCore M t) {pf : PoolFlags} {n off : Nat}
    (ho : off < pgSize) (res : Reserved M t (half s.cur pf) n) (found : TableFound M t s.cur (n * pgSize + off)) :
    Corres (Ram.getAPageWithoutOpvaddrbitmap M pf (n * pgSize + off)) (getAPageWithoutOpvaddrbitmap M pf s.cur (n * pgSize + off))
      (fun a b s' t' => a = b ∧ Keeps dir s s' t') s t := by
  refine corres_bind (palloc_corres shows core pf) ?_
  rintro r _ s₁ t₁ ⟨rfl, tracks, -, -, post⟩
  cases r with
  | none => exact corres_pure ⟨rfl, tracks⟩
  | some f =>
    obtain ⟨core₁, marked, -, virt, pde, -, kernel⟩ := post f rfl
    have found₁ := found.after ho res core₁ pde kernel
    rw [← tracks.cur] at res found₁ ⊢
    refine corres_bind (pageTableAdd_corres tracks.shows core₁ fits ho (virt.reserved.2 res) marked found₁) ?_
    intro _ _ s₂ t₂ last
    exact corres_pure ⟨rfl, tracks.trans last⟩

theorem Shows.user_iff (shows : Shows dir s t) : s.pgdir s.cur ≠ 0 ↔ s.cur ≠ 0 := by
  constructor
  · exact fun alive => Nat.ne_of_gt (shows.pos alive)
  · exact fun process => shows.cur.resolve_left process

/-- get_a_page sets the bit of the page first. -/
theorem getAPage_corres (fits : M.Addressable) (shows : Shows dir s t) (inv : PageInv M t) {pf : PoolFlags} {n off : Nat}
    (ho : off < pgSize) (inside : InVaddr M (half s.cur pf) n) (found : TableFound M t s.cur (n * pgSize + off)) :
    Corres (Ram.getAPage M pf (n * pgSize + off)) (getAPage M pf s.cur (n * pgSize + off))
      (fun a b s' t' => a = b ∧ Keeps dir s s' t') s t := by
  have idx := bitIdx_page inside ho
  have ge := inside.ge
  have kept {h : Option Nat} {m : Nat} (res : Reserved M t h m) :
      Reserved M (t.reserve pf s.cur (n - vaddrBase pf) 1 true) h m := by
    refine ⟨res.1, ?_⟩
    rw [vaddrBit_reserve res.1, res.2, ite_self]
  have res : Reserved M (t.reserve pf s.cur (n - vaddrBase pf) 1 true) (half s.cur pf) n := by
    refine ⟨inside, ?_⟩
    rw [vaddrBit_reserve inside, if_pos ⟨rfl, by omega, by omega⟩]
  have phys : SamePhys t (t.reserve pf s.cur (n - vaddrBase pf) 1 true) := reserve_samePhys
  have core := inv.core.samePhys phys fun _ _ _ _ => kept
  have found' : TableFound M (t.reserve pf s.cur (n - vaddrBase pf) 1 true) s.cur (n * pgSize + off) := by
    unfold TableFound Machine.scanPool at *
    rwa [phys.1, phys.2.2.1]
  have go {s₁ : Ram} (tracks : Keeps dir s s₁ (t.reserve pf s.cur (n - vaddrBase pf) 1 true)) :
      Corres (Ram.getAPageWithoutOpvaddrbitmap M pf (n * pgSize + off)) (getAPageWithoutOpvaddrbitmap M pf s.cur (n * pgSize + off))
        (fun a b s' t' => a = b ∧ Keeps dir s s' t') s₁ (t.reserve pf s.cur (n - vaddrBase pf) 1 true) := by
    have sim := getWithout_corres fits tracks.shows core ho (by rw [tracks.cur]; exact res) (by rw [tracks.cur]; exact found')
    rw [tracks.cur] at sim
    exact corres_mono sim fun _ _ _ _ last => ⟨last.1, tracks.trans last.2⟩
  have set := ((blind_reserve pf s.cur (n - vaddrBase pf) 1 true).corres shows).ensures
    (Q := fun _ t' => t' = t.reserve pf s.cur (n - vaddrBase pf) 1 true) ((wp_modify _).2 rfl)
  cases pf with
  | kernel =>
    rw [show vaddrBase .kernel * pgSize = kHeapStart by decide] at idx
    refine corres_get_left (corres_get_left (corres_check_bind (not_iff_not.1 shows.user_iff) fun _ => ?_))
    refine corres_check_bind Iff.rfl fun _ => ?_
    rw [idx]
    refine corres_bind set ?_
    rintro _ _ s₁ _ ⟨⟨-, tracks, -⟩, rfl, -⟩
    exact go tracks
  | user =>
    rw [show vaddrBase .user * pgSize = userVaddrStart by decide] at idx
    refine corres_get_left (corres_get_left (corres_check_bind shows.user_iff fun _ => ?_))
    refine corres_check_bind Iff.rfl fun _ => ?_
    rw [idx]
    refine corres_bind set ?_
    rintro _ _ s₁ _ ⟨⟨-, tracks, -⟩, rfl, -⟩
    exact go tracks

/-! mfree_page. -/

/-- Both read the entry of an address, or both fault. -/
theorem Shows.pteOf_corres (shows : Shows dir s t) (kernel : KernelHalf t) {v : Nat} (mine : Mine s.cur v) :
    Corres (Ram.load (Ram.ptePtr v)) (pteOf s.cur v) (fun w e s' t' => s = s' ∧ t = t' ∧ Shown w e ∧ w < 2 ^ 32 ∧
      (t.pde s.cur (pdeIdx v)).present = true) s t := by
  by_cases present : (t.pde s.cur (pdeIdx v)).present = true
  · have place := shows.lands_pte mine present
    have entry : Succeeds (pteOf s.cur v) (fun e t' => e = t.pte (t.pde s.cur (pdeIdx v)).addr (pteIdx v) ∧ t = t') t := by
      simp [pteOf, wp_ite, present]
    refine wp_mono entry ?_ fun _ no => no.elim
    rintro _ _ ⟨rfl, rfl⟩
    exact (Ram.wp_load place).2 ⟨rfl, rfl, shows.pte_shown kernel mine present, word_lt _ _, present⟩
  · have place := shows.walk_pte mine
    rw [if_neg present] at place
    refine corres_iff.2 (.inr ⟨.undefined, ?_, ?_⟩)
    · simp [Ram.load, Ram.translate, place, bind, StateT.bind, Except.bind, get, getThe, MonadStateOf.get, StateT.get, pure, Except.pure,
        throw, throwThe, MonadExceptOf.throw, StateT.lift]
    · simp [pteOf, present, bind, StateT.bind, Except.bind, get, getThe, MonadStateOf.get, StateT.get, pure, Except.pure,
        throw, throwThe, MonadExceptOf.throw, StateT.lift]

theorem addrV2p_corres (shows : Shows dir s t) (kernel : KernelHalf t) {v : Nat} (mine : Mine s.cur v) :
    Corres (Ram.addrV2p v) (addrV2p s.cur v) (fun a b s' t' => a = b ∧ s = s' ∧ t = t') s t := by
  refine corres_bind (shows.pteOf_corres kernel mine) ?_
  rintro w e _ _ ⟨rfl, rfl, shown, -⟩
  exact corres_pure ⟨by rw [shown.1], rfl, rfl⟩

theorem releasePage_corres (shows : Shows dir s t) (core : PageCore M t) {pf : PoolFlags} {n : Nat} {inPool : Nat → Bool}
    (res : Reserved M t (half s.cur pf) n)
    (other : ∀ q, s.pgdir q ≠ 0 → Slot.page none (s.pgdir q / pgSize) ≠ .page (half s.cur pf) n) :
    Corres (Ram.releasePage M (n * pgSize) inPool) (releasePage M s.cur (n * pgSize) inPool)
      (fun _ _ s' t' => Tracks dir s s' t') s t := by
  have mine := res.mine (o := 0) (by decide)
  rw [Nat.add_zero] at mine
  refine corres_bind (addrV2p_corres shows core.kernel_pde mine) ?_
  rintro f _ _ _ ⟨rfl, rfl, rfl⟩
  refine corres_check_bind Iff.rfl fun _ => ?_
  refine corres_bind ((blind_pfree f).corres shows) ?_
  rintro _ _ s₁ t₁ ⟨-, tracks, -, pde, pte, runs⟩
  have shows₁ := tracks.shows
  have half₁ : KernelHalf t₁ := fun q i low high => by rw [pde, core.kernel_pde q i low high]
  rw [← tracks.cur] at mine res other ⊢
  rw [← tracks.pgdir] at other
  refine corres_bind (shows₁.pteOf_corres half₁ mine) ?_
  rintro w e _ _ ⟨rfl, rfl, shown, low, present⟩
  have page : n * pgSize = n * pgSize + 0 := (Nat.add_zero _).symm
  rw [page] at present ⊢
  refine corres_then (shows₁.entry_corres core pde pte runs (by decide) res present other ?_ rfl) ?_
  · rw [even_mod low]
    exact shown.absent
  · intro _ _ s₂ _ last
    refine (wp_modify _).2 (tracks.toTracks.trans ⟨last.cur, last.pgdir, last.shows.restale ?_⟩)
    intro e kept
    split at kept
    · rcases List.mem_cons.1 kept with rfl | old
      · have below := mine.below
        simp only [pgSize] at below ⊢
        omega
      · exact last.shows.stale e old
    · exact last.shows.stale e kept

theorem release_corres (shows : Shows dir s t) (core : PageCore M t) {pf : PoolFlags} {n cnt : Nat} {inPool : Nat → Bool}
    (res : ∀ k < cnt, Reserved M t (half s.cur pf) (n + k))
    (use : ∀ k < cnt, ∃ i < M.poolLen pf, Uses t (.page (half s.cur pf) (n + k)) (M.frame pf i))
    (pool : ∀ i < M.poolLen pf, inPool (M.frame pf i) = true)
    (other : ∀ q, s.pgdir q ≠ 0 → ∀ k < cnt, Slot.page none (s.pgdir q / pgSize) ≠ .page (half s.cur pf) (n + k)) :
    Corres (forRange cnt fun k => Ram.releasePage M (n * pgSize + k * pgSize) inPool)
      (forRange cnt fun k => releasePage M s.cur (n * pgSize + k * pgSize) inPool) (fun _ _ s' t' => Tracks dir s s' t') s t := by
  refine corres_forRange (fun _ s' t' => Tracks dir s s' t') shows.tracks ?_
  intro k u v hk tracks run
  have rel := returns_iff.1 (release_loop core (fun j hj => use j (by omega)) pool).returns _ _ run
  rw [← Nat.add_mul]
  rw [← tracks.cur] at res other rel ⊢
  rw [← tracks.pgdir] at other
  refine corres_mono (releasePage_corres tracks.shows (rel.core core) (rel.virt.reserved.2 (res k hk)) fun q alive => other q alive k hk) ?_
  exact fun _ _ _ _ last => tracks.trans last

theorem mfreePage_corres (shows : Shows dir s t) (core : PageCore M t) {pf : PoolFlags} {n cnt : Nat} (pos : 0 < cnt)
    (res : ∀ k < cnt, Reserved M t (half s.cur pf) (n + k))
    (use : ∀ k < cnt, ∃ f, Uses t (.page (half s.cur pf) (n + k)) f)
    (other : ∀ q, s.pgdir q ≠ 0 → ∀ k < cnt, Slot.page none (s.pgdir q / pgSize) ≠ .page (half s.cur pf) (n + k)) :
    Corres (Ram.mfreePage M pf (n * pgSize) cnt) (mfreePage M pf s.cur (n * pgSize) cnt) (fun _ _ s' t' => Tracks dir s s' t') s t := by
  have frames : ∀ k < cnt, ∃ i < M.poolLen pf, Uses t (.page (half s.cur pf) (n + k)) (M.frame pf i) := by
    intro k hk
    obtain ⟨f, used⟩ := use k hk
    obtain ⟨i, hi, rfl⟩ := core.pool_frame (res k hk) used
    exact ⟨i, hi, used⟩
  obtain ⟨i, hi, used⟩ := frames 0 pos
  have mine := (res 0 pos).mine (o := 0) (by decide)
  rw [Nat.add_zero, Nat.add_zero] at mine
  have first : Succeeds (addrV2p s.cur (n * pgSize)) (fun f _ => f = M.frame pf i) t := by
    rw [addrV2p, Succeeds, wp_bind]
    refine wp_post (pteOf_used core used).2 ?_
    rintro _ _ ⟨rfl, rfl⟩
    rw [wp_pure, Nat.mul_mod_left, Nat.add_zero]
  have remove {u : Ram} {v : VM} (tracks : Tracks dir s u v) :
      Corres (do
        let cur := (← get).cur
        onBooks (vaddrRemove pf cur (n * pgSize) cnt)) (vaddrRemove pf s.cur (n * pgSize) cnt) (fun _ _ s' t' => Tracks dir s s' t') u v := by
    refine corres_get_left ?_
    rw [tracks.cur]
    refine corres_mono ((blind_vaddrRemove pf s.cur (n * pgSize) cnt).corres tracks.shows) ?_
    rintro _ _ _ _ ⟨-, last, -⟩
    exact tracks.trans last.toTracks
  refine corres_check_bind Iff.rfl fun _ => ?_
  refine corres_bind ((addrV2p_corres shows core.kernel_pde mine).ensures first.returns) ?_
  rintro f _ _ _ ⟨⟨rfl, rfl, rfl⟩, rfl, -⟩
  refine corres_check_bind Iff.rfl fun _ => ?_
  refine corres_ite Iff.rfl (fun high => ?_) fun low => ?_
  · obtain rfl := (frame_user hi).1 high
    refine corres_bind (release_corres shows core res frames (fun j hj => ?_) other) fun _ _ _ _ tracks => remove tracks
    simpa using (frame_user hj).2 rfl
  · obtain rfl : pf = .kernel := by
      cases pf with
      | kernel => rfl
      | user => exact absurd ((frame_user hi).2 rfl) low
    refine corres_bind (release_corres shows core res frames (fun j hj => ?_) other) fun _ _ _ _ tracks => remove tracks
    have above := frame_ge (M := M) .kernel j
    have below := frame_user hj
    simp only [reduceCtorEq, iff_false] at below
    simp only [Bool.decide_and, Bool.and_eq_true, decide_eq_true_eq]
    omega

end Zhenxiang.Paging
