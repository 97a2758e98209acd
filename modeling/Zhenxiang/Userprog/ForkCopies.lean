import Zhenxiang.Paging.SpacesCorrect
import Zhenxiang.Userprog.Fork

/-! A fork gives the child the pages of its parent, on frames of its own. -/
namespace Zhenxiang.Userprog
open Lib Kernel Paging
open Fs (maxFileOpen maxFilesOpenPerProc)

/-- The pages of a process. -/
def pagesOf (s : VM) (p : Nat) : Finset Nat :=
  (Finset.range 0xc0000).filter fun n => (s.pde p (n / 1024)).present = true ∧
    (s.pte (s.pde p (n / 1024)).addr (n % 1024)).present = true

/-- The directory entries that they need a page table for. -/
def tablesOf (s : VM) (p : Nat) : Finset Nat := (pagesOf s p).image (· / 1024)

/-- Number of the first page of a process. -/
def firstPage : Nat := userVaddrStart / pgSize

section Copy
variable {M : Machine} {s s₀ t : Spaces} {p q np nq B i n : Nat}

theorem mem_pagesOf {s : VM} (process : 0 < p) : n ∈ pagesOf s p ↔ ∃ f, Uses s (.page (some p) n) f := by
  rw [pagesOf, Finset.mem_filter, Finset.mem_range]
  constructor
  · rintro ⟨low, there, mapped⟩
    exact ⟨_, process, low, there, by rw [← mapped]⟩
  · rintro ⟨f, -, low, there, entry⟩
    exact ⟨low, there, by rw [entry]⟩

/-- Before copy_body_stack3: the parent np is active, the child nq is without pages, B is the buffer, and there
are frames for all the pages of the parent. -/
structure CopyReady (M : Machine) (s : Spaces) (np nq B : Nat) : Prop where
  core : PageCore M s.vm
  active : s.cr3 = np * pgSize
  parent : 0xc0000 ≤ np ∧ np < 0xffc00
  child : 0xc0000 ≤ nq ∧ nq < 0xffc00
  other : np ≠ nq
  buffer : ∃ b, Uses s.vm (.page none B) b
  high : 0xc0100 ≤ B
  recorded : ∀ n f, Uses s.vm (.page (some (np * pgSize)) n) f → firstPage ≤ n ∧ Reserved M s.vm (some (nq * pgSize)) n
  empty : ∀ n f, ¬ Uses s.vm (.page (some (nq * pgSize)) n) f
  noTable : ∀ i < 768, (s.vm.pde (nq * pgSize) i).present = false
  frames : (pagesOf s.vm (np * pgSize)).card ≤ (s.vm.free M .user).card
  tables : (tablesOf s.vm (np * pgSize)).card ≤ (s.vm.free M .kernel).card

/-- The first i pages have been looked at, and those of the parent are copied. -/
structure Copying (M : Machine) (s₀ s : Spaces) (np nq B i : Nat) : Prop where
  core : PageCore M s.vm
  cr3 : s.cr3 = s₀.cr3
  virt : SameVirt s₀.vm s.vm
  kept : ∀ sl f, Uses s₀.vm sl f → Uses s.vm sl f
  only : ∀ h n f, Uses s.vm (.page h n) f → Uses s₀.vm (.page h n) f ∨ h = some (nq * pgSize) ∧ n < firstPage + i ∧
    ∃ g, Uses s₀.vm (.page (some (np * pgSize)) n) g
  copied : ∀ n f, n < firstPage + i → Uses s₀.vm (.page (some (np * pgSize)) n) f →
    ∃ g, Uses s.vm (.page (some (nq * pgSize)) n) g ∧ ∀ o < pgSize, s.ram (g + o) = s₀.ram (f + o)
  ram : ∀ h n f, Uses s₀.vm (.page h n) f → (h = none → 0xc0100 ≤ n ∧ n ≠ B) → ∀ o < pgSize, s.ram (f + o) = s₀.ram (f + o)
  frames : ((pagesOf s₀.vm (np * pgSize)).filter fun n => firstPage + i ≤ n).card ≤ (s.vm.free M .user).card
  tables : ((tablesOf s₀.vm (np * pgSize)).filter fun c => (s.vm.pde (nq * pgSize) c).present = false).card ≤
    (s.vm.free M .kernel).card

theorem CopyReady.start (h : CopyReady M s np nq B) : Copying M s s np nq B 0 where
  core := h.core
  cr3 := rfl
  virt := ⟨rfl, rfl, rfl⟩
  kept _ _ hf := hf
  only _ _ _ hf := .inl hf
  copied n f low hf := absurd (h.recorded n f hf).1 (Nat.not_le.2 low)
  ram _ _ _ _ _ _ _ := rfl
  frames := Nat.le_trans (Finset.card_filter_le _ _) h.frames
  tables := Nat.le_trans (Finset.card_filter_le _ _) h.tables

/-- A page that the parent does not have is passed over. -/
theorem Copying.skip (h : Copying M s₀ s np nq B i)
    (absent : ∀ f, ¬ Uses s₀.vm (.page (some (np * pgSize)) (firstPage + i)) f) : Copying M s₀ s np nq B (i + 1) where
  core := h.core
  cr3 := h.cr3
  virt := h.virt
  kept := h.kept
  only hh n f hf := (h.only hh n f hf).imp_right fun ⟨child, low, old⟩ => ⟨child, by omega, old⟩
  copied n f low hf := h.copied n f (by
    have other : n ≠ firstPage + i := by
      rintro rfl
      exact absent f hf
    omega) hf
  ram := h.ram
  frames := Nat.le_trans (Finset.card_le_card fun n hn => by
    rw [Finset.mem_filter] at hn ⊢
    exact ⟨hn.1, by omega⟩) h.frames
  tables := h.tables

theorem card_filter_less {A : Finset Nat} {P Q : Nat → Prop} [DecidablePred P] [DecidablePred Q] {x : Nat} (mem : x ∈ A)
    (yes : P x) (no : ¬ Q x) (sub : ∀ y, Q y → P y) : (A.filter Q).card + 1 ≤ (A.filter P).card := by
  refine Finset.card_lt_card (Finset.ssubset_iff_subset_ne.2 ⟨fun y hy => ?_, fun same => ?_⟩)
  · rw [Finset.mem_filter] at hy ⊢
    exact ⟨hy.1, sub y hy.2⟩
  · have inside : x ∈ A.filter P := Finset.mem_filter.2 ⟨mem, yes⟩
    rw [← same, Finset.mem_filter] at inside
    exact no inside.2

/-- One page goes through the buffer into a new frame of the child. -/
theorem copyPage_spec (complete : M.Complete) (ready : CopyReady M s₀ np nq B) (h : Copying M s₀ s np nq B i) {f : Nat}
    (here : Uses s₀.vm (.page (some (np * pgSize)) (firstPage + i)) f) :
    Succeeds (copyPage M (nq * pgSize) (np * pgSize) ((firstPage + i) * pgSize) (B * pgSize))
      (fun _ t => Copying M s₀ t np nq B (i + 1)) s := by
  generalize hn : firstPage + i = n at *
  obtain ⟨b, buffer⟩ := ready.buffer
  have active : s.cr3 = np * pgSize := h.cr3.trans ready.active
  have process : 0 < n := by
    have first : 0 < firstPage := by decide
    omega
  have use := h.kept _ _ here
  rw [copyPage, Succeeds, wp_bind]
  -- the page goes into the buffer
  refine wp_post (memcpy_page h.core (h.kept _ _ buffer) use ?_ (fun _ => ready.high)
    (fun no => absurd no.symm (Option.some_ne_none _)) ⟨by have := ready.high; omega, process⟩) ?_
  · rintro p (no | same)
    · cases no
    · exact (Option.some.inj same).symm.trans active.symm
  rintro _ _ ⟨r, rfl, buffered, same⟩
  -- the child gets a frame for it
  rw [wp_bind]
  refine wp_post (pageDirActivate_spec (s := s.withRam r) h.core ready.child.1 ready.child.2) ?_
  rintro _ _ rfl
  rw [wp_bind, wp_get, wp_bind, wp_onPages]
  have unmapped (g : Nat) : ¬ Uses s.vm (.page (some (nq * pgSize)) n) g := by
    intro hg
    rcases h.only _ _ _ hg with old | ⟨-, low, -⟩
    · exact ready.empty _ _ old
    · omega
  have parent : 0 < np * pgSize := Nat.mul_pos (by have := ready.parent; omega) (by decide)
  have mem : n ∈ pagesOf s₀.vm (np * pgSize) := (mem_pagesOf parent).2 ⟨f, here⟩
  have inTables : n / 1024 ∈ tablesOf s₀.vm (np * pgSize) := Finset.mem_image.2 ⟨n, mem, rfl⟩
  have room : 0 < (s.vm.free M .user).card :=
    Nat.lt_of_lt_of_le (Finset.card_pos.2 ⟨n, Finset.mem_filter.2 ⟨mem, by omega⟩⟩) h.frames
  have table : (s.vm.pde (nq * pgSize) (n / 1024)).present = true ∨ 0 < (s.vm.free M .kernel).card := by
    cases there : (s.vm.pde (nq * pgSize) (n / 1024)).present with
    | true => exact .inl rfl
    | false =>
      refine .inr (Nat.lt_of_lt_of_le (Finset.card_pos.2 ⟨n / 1024, ?_⟩) h.tables)
      rw [Finset.mem_filter]
      exact ⟨inTables, there⟩
  refine wp_post (forkPage_takes complete h.core (h.virt.reserved.2 (ready.recorded n f here).2) unmapped room table) ?_
  rintro _ vm ⟨core, ext, ⟨g, new⟩, fewer, tables⟩
  replace ext : Extends s.vm vm _ := ext
  replace fewer : (vm.free M .user).card + 1 = (s.vm.free M .user).card := fewer
  replace tables : TableAdded M s.vm vm (nq * pgSize) (n / 1024) := tables
  dsimp only
  rw [wp_bind]
  have buffer' := ext.kept _ _ (h.kept _ _ buffer)
  have active' (p : Nat) (hp : some (nq * pgSize) = some p ∨ none = some p) : p = nq * pgSize :=
    hp.elim (fun same => (Option.some.inj same).symm) fun no => absurd no.symm (Option.some_ne_none _)
  refine wp_post (memcpy_page (s := ⟨vm, nq * pgSize, r⟩) (h := some (nq * pgSize)) core new buffer' active' (fun no => absurd no (Option.some_ne_none _))
    (fun no => absurd no (Option.some_ne_none _)) ⟨process, by have := ready.high; omega⟩) ?_
  rintro _ _ ⟨r', rfl, written, same'⟩
  refine wp_post (pageDirActivate_spec (s := { vm := vm, cr3 := nq * pgSize, ram := r' }) core ready.parent.1 ready.parent.2) ?_
  rintro _ _ rfl
  -- pages apart from the buffer and the new frame keep what they hold
  have old {hh : Option Nat} {m e : Nat} (hu : Uses s.vm (.page hh m) e) (cond : hh = none → 0xc0100 ≤ m ∧ m ≠ B)
      (o : Nat) (ho : o < pgSize) : r' (e + o) = s.ram (e + o) := by
    have notNew (o' : Nat) (ho' : o' < pgSize) : e + o ≠ g + o' := by
      refine core.bytes_apart (ext.kept _ _ hu) new (fun no => absurd no (Option.some_ne_none _)) ?_ ho ho'
      rintro ⟨rfl, rfl⟩
      exact unmapped _ hu
    have notBuffer (o' : Nat) (ho' : o' < pgSize) : e + o ≠ b + o' := by
      refine core.bytes_apart (ext.kept _ _ hu) buffer' (fun _ => ready.high) ?_ ho ho'
      rintro ⟨rfl, rfl⟩
      exact (cond rfl).2 rfl
    exact (same' _ notNew).trans (same _ notBuffer)
  have contents (o : Nat) (ho : o < pgSize) : r' (g + o) = s₀.ram (f + o) := by
    rw [written o ho]
    exact (buffered o ho).trans (h.ram _ _ _ here (fun no => absurd no (Option.some_ne_none _)) o ho)
  exact
    { core := core
      cr3 := ready.active.symm
      virt := h.virt.trans ext.virt
      kept := fun sl e hu => ext.kept sl e (h.kept sl e hu)
      only := by
        intro hh m e hu
        rcases ext.only _ _ hu with hu | same | ⟨p, i, no⟩
        · refine (h.only hh m e hu).imp_right ?_
          rintro ⟨child, low, use⟩
          exact ⟨child, by omega, use⟩
        · obtain ⟨rfl, rfl⟩ := Slot.page.inj same
          exact .inr ⟨rfl, by omega, f, here⟩
        · cases no
      copied := by
        intro m e low hu
        by_cases last : m = n
        · subst last
          cases hu.fun here
          exact ⟨g, new, contents⟩
        · obtain ⟨g', use', copied⟩ := h.copied m e (by omega) hu
          exact ⟨g', ext.kept _ _ use', fun o ho => (old use' (fun no => absurd no (Option.some_ne_none _)) o ho).trans (copied o ho)⟩
      ram := fun hh m e hu cond o ho => (old (h.kept _ _ hu) cond o ho).trans (h.ram hh m e hu cond o ho)
      frames := by
        have less := card_filter_less (P := fun m => firstPage + i ≤ m) (Q := fun m => firstPage + (i + 1) ≤ m) mem
          (by omega) (by omega) fun m hm => by omega
        have before := h.frames
        dsimp only
        omega
      tables := by
        have before := h.tables
        dsimp only
        rcases tables.kernel with ⟨-, pde, free⟩ | ⟨absent, there, kernel⟩
        · rwa [pde, free]
        · have less := card_filter_less (P := fun c => (s.vm.pde (nq * pgSize) c).present = false)
            (Q := fun c => (vm.pde (nq * pgSize) c).present = false) inTables absent (by rw [there]; exact Bool.noConfusion) fun c hc => by
              by_cases same : c = n / 1024
              · rwa [same]
              · rwa [tables.others _ c fun _ => same] at hc
          omega }

/-- Reading the bitmap of the parent while the pages are copied. -/
structure BitmapRead (M : Machine) (s₀ : Spaces) (np nq B bits len : Nat) (byte : Nat → UInt8) : Prop where
  loads : ∀ i s, Copying M s₀ s np nq B i → ∀ k < len, ∃ a, s.phys (bits + k) = some a ∧ s.ram a = byte k
  recorded : ∀ i < len * 8, (byte (i / 8)).toNat.testBit (i % 8) = true ↔
    ∃ f, Uses s₀.vm (.page (some (np * pgSize)) (firstPage + i)) f

/-- The loops over the bytes of the bitmap and over the bits of a byte come by every page once. -/
theorem copyBody_spec (complete : M.Complete) (ready : CopyReady M s np nq B) {child parent : Pcb} {byte : Nat → UInt8}
    (read : BitmapRead M s np nq B parent.bits parent.btmpBytesLen byte) (first : parent.vaddrStart = userVaddrStart)
    (pgdir : parent.pgdir = np * pgSize) (pgdir' : child.pgdir = nq * pgSize) :
    Succeeds (copyBodyStack3 M child parent (B * pgSize))
      (fun _ t => Copying M s t np nq B (parent.btmpBytesLen * 8)) s := by
  apply wp_forRange fun k t => Copying M s t np nq B (k * 8)
  · rw [Nat.zero_mul]
    exact ready.start
  intro k t hk copying
  obtain ⟨a, there, value⟩ := read.loads _ t copying k hk
  rw [wp_bind]
  refine (wp_loadByte (s := t) (r := t.ram) there).2 ?_
  rw [value, Nat.succ_mul, wp_ite]
  refine ⟨fun _ => ?_, fun zero => (wp_pure _).2 ?_⟩
  · apply wp_forRange fun j u => Copying M s u np nq B (k * 8 + j)
    · exact copying
    intro j u hj copying
    obtain ⟨a, there, value⟩ := read.loads _ u copying k hk
    have bit := read.recorded (k * 8 + j) (by omega)
    rw [show (k * 8 + j) / 8 = k by omega, show (k * 8 + j) % 8 = j by omega] at bit
    rw [wp_bind]
    refine (wp_loadByte (s := u) (r := u.ram) there).2 ?_
    rw [value, wp_ite, first, pgdir, pgdir']
    refine ⟨fun set => ?_, fun clear => (wp_pure _).2 ?_⟩
    · obtain ⟨f, use⟩ := bit.1 set
      have page : (k * 8 + j) * pgSize + userVaddrStart = (firstPage + (k * 8 + j)) * pgSize := by
        have start : userVaddrStart = firstPage * pgSize := by decide
        rw [start, Nat.add_comm, ← Nat.add_mul]
      rw [page]
      exact copyPage_spec complete ready copying use
    · exact copying.skip fun f use => clear (bit.2 ⟨f, use⟩)
  · -- no bit of a byte that is zero is set
    have nothing (j : Nat) (hj : j < 8) : Copying M s t np nq B (k * 8 + j) → Copying M s t np nq B (k * 8 + j + 1) := by
      intro copying
      refine copying.skip fun f use => ?_
      have set := (read.recorded (k * 8 + j) (by omega)).2 ⟨f, use⟩
      rw [show (k * 8 + j) / 8 = k by omega, not_not.1 zero] at set
      simp at set
    have upTo (j : Nat) (hj : j ≤ 8) : Copying M s t np nq B (k * 8 + j) := by
      induction j with
      | zero => exact copying
      | succ j ih => exact nothing j (by omega) (ih (by omega))
    exact upTo 8 (Nat.le_refl 8)

theorem bitmapAt_eq {bits a i : Nat} (there : s.phys (bits + i / 8) = some a) :
    s.bitmapAt bits i = (s.ram a).toNat.testBit (i % 8) := by
  rw [Spaces.bitmapAt, there]

/-- The bitmap of the parent is in pages of the kernel besides the buffer. -/
theorem CopyReady.read (ready : CopyReady M s np nq B) {nb cnt len : Nat} {F : Nat → Nat}
    (pages : ∀ k < cnt, Uses s.vm (.page none (nb + k)) (F k)) (high : 0xc0100 ≤ nb) (away : B < nb ∨ nb + cnt ≤ B)
    (fits : len ≤ cnt * pgSize)
    (recorded : ∀ i < len * 8, s.bitmapAt (nb * pgSize) i = true ↔
      ∃ f, Uses s.vm (.page (some (np * pgSize)) (firstPage + i)) f) :
    BitmapRead M s np nq B (nb * pgSize) len fun k => s.ram (F (k / pgSize) + k % pgSize) where
  loads i t copying k hk := by
    have page : k / pgSize < cnt := Nat.div_lt_of_lt_mul (by rw [Nat.mul_comm]; omega)
    refine ⟨_, copying.core.phys_range (fun j hj => copying.kept _ _ (pages j hj)) (fun _ no => nomatch no) (by omega), ?_⟩
    refine copying.ram _ _ _ (pages _ page) (fun _ => ?_) _ (Nat.mod_lt _ (by decide))
    generalize k / pgSize = x at page
    omega
  recorded i hi := by
    have there := ready.core.phys_range (k := i / 8) pages (fun _ no => nomatch no) (by omega)
    rw [← recorded i hi, bitmapAt_eq there]

end Copy

/-- A process that is running, with its bitmap in pages of the kernel and a bit for each of its pages. -/
structure Forkable (M : Machine) (s : Spaces) (parent : Pcb) (np nb : Nat) : Prop where
  core : PageCore M s.vm
  active : s.cr3 = parent.pgdir
  pgdir : parent.pgdir = np * pgSize
  dir : Reserved M s.vm none np
  vaddrStart : parent.vaddrStart = userVaddrStart
  btmpBytesLen : parent.btmpBytesLen = (0xc0000000 - userVaddrStart) / pgSize / 8
  bits : parent.bits = nb * pgSize
  bitmap : ∀ k < bitmapPgCnt, Reserved M s.vm none (nb + k) ∧ ∃ f, Uses s.vm (.page none (nb + k)) f
  recorded : ∀ i < parent.btmpBytesLen * 8, s.bitmapAt parent.bits i = true ↔
    ∃ f, Uses s.vm (.page (some parent.pgdir) (firstPage + i)) f
  fds : ∀ k < maxFilesOpenPerProc - 3, parent.fdTable (3 + k) < maxFileOpen

/-- The frames and the virtual pages of the kernel that a fork takes: the buffer, the bitmap, the page directory,
the pages and their page tables. -/
structure Enough (M : Machine) (s : VM) (p : Nat) : Prop where
  frames : (pagesOf s p).card ≤ (s.free M .user).card
  kernelFrames : bitmapPgCnt + 2 + (tablesOf s p).card ≤ (s.free M .kernel).card
  vaddr : ∃ i j k, M.scan s.kernelVaddr M.kLen 1 = some i ∧
    M.scan (setBits s.kernelVaddr i 1 true) M.kLen bitmapPgCnt = some j ∧
    M.scan (setBits (setBits s.kernelVaddr i 1 true) j bitmapPgCnt true) M.kLen 1 = some k

/-- The byte at a virtual address of the address space p, if there is one. -/
def seen (s : Spaces) (p vaddr : Nat) : Option UInt8 := ({ s with cr3 := p } : Spaces).phys vaddr |>.map s.ram

/-- What a fork leaves: the child sees what the parent sees, on frames of its own, the parent sees what it has
seen, and each has its own copy of the bitmap. -/
structure ForkCopied (s t : Spaces) (parent child : Pcb) : Prop where
  other : child.pgdir ≠ parent.pgdir
  same : ∀ vaddr < 0xc0000000, seen t child.pgdir vaddr = seen t parent.pgdir vaddr
  kept : ∀ vaddr < 0xc0000000, seen t parent.pgdir vaddr = seen s parent.pgdir vaddr
  mappings : ∀ n f, Uses t.vm (.page (some parent.pgdir) n) f ↔ Uses s.vm (.page (some parent.pgdir) n) f
  frames : ∀ n f sl, Uses t.vm (.page (some child.pgdir) n) f → Uses t.vm sl f → sl = .page (some child.pgdir) n
  bitmap : ∀ i < parent.btmpBytesLen * 8, t.bitmapAt child.bits i = t.bitmapAt parent.bits i ∧
    t.bitmapAt parent.bits i = s.bitmapAt parent.bits i
  stored : ∀ i < parent.btmpBytesLen, ∀ j < parent.btmpBytesLen, ∃ a b, t.phys (child.bits + i) = some a ∧
    t.phys (parent.bits + j) = some b ∧ a ≠ b
  geometry : child.vaddrStart = parent.vaddrStart ∧ child.btmpBytesLen = parent.btmpBytesLen
  active : t.cr3 = parent.pgdir

section Views
variable {M : Machine} {s t u : Spaces} {p q n B : Nat} {K : Nat → Prop}

theorem seen_mapped (core : PageCore M s.vm) {f o : Nat} (use : Uses s.vm (.page (some p) n) f) (ho : o < pgSize) :
    seen s p (n * pgSize + o) = some (s.ram (f + o)) := by
  have there := PageCore.phys_at (s := { s with cr3 := p }) core use (fun _ same => (Option.some.inj same).symm) ho
  rw [seen, there, Option.map_some]

theorem seen_unmapped (process : 0 < p) (low : n < 0xc0000) (absent : ∀ f, ¬ Uses s.vm (.page (some p) n) f) {o : Nat}
    (ho : o < pgSize) : seen s p (n * pgSize + o) = none := by
  rw [seen, Spaces.phys, pdeIdx_page ho, pteIdx_page ho]
  dsimp only
  rw [if_neg, Option.map_none]
  rintro ⟨there, mapped⟩
  exact absent _ ⟨process, low, there, by rw [← mapped]⟩

/-- Two address spaces look the same where the same pages hold the same bytes. -/
theorem seen_congr (core : PageCore M s.vm) (core' : PageCore M t.vm) (process : 0 < p) (process' : 0 < q)
    (there : ∀ n f, Uses s.vm (.page (some p) n) f → ∃ g, Uses t.vm (.page (some q) n) g ∧
      ∀ o < pgSize, t.ram (g + o) = s.ram (f + o))
    (back : ∀ n g, Uses t.vm (.page (some q) n) g → ∃ f, Uses s.vm (.page (some p) n) f) {vaddr : Nat}
    (low : vaddr < 0xc0000000) : seen t q vaddr = seen s p vaddr := by
  have ho : vaddr % pgSize < pgSize := Nat.mod_lt _ (by decide)
  have hn : vaddr / pgSize < 0xc0000 := by
    rw [pgSize]
    omega
  rw [← Nat.div_add_mod' vaddr pgSize]
  by_cases mapped : ∃ f, Uses s.vm (.page (some p) (vaddr / pgSize)) f
  · obtain ⟨f, use⟩ := mapped
    obtain ⟨g, use', same⟩ := there _ f use
    rw [seen_mapped core use ho, seen_mapped core' use' ho, same _ ho]
  · rw [seen_unmapped process hn (fun f use => mapped ⟨f, use⟩) ho,
      seen_unmapped process' hn (fun g use => mapped (back _ g use)) ho]

/-- The kernel pages in K and the pages of p stay where they are and hold what they held, and p gets no other. -/
structure Carries (M : Machine) (s t : Spaces) (p : Nat) (K : Nat → Prop) : Prop where
  core : PageCore M t.vm
  cr3 : t.cr3 = s.cr3
  kept : ∀ h n f, (h = none ∧ K n ∨ h = some p) → Uses s.vm (.page h n) f → Uses t.vm (.page h n) f
  back : ∀ n f, Uses t.vm (.page (some p) n) f → Uses s.vm (.page (some p) n) f
  ram : ∀ h n f, (h = none ∧ K n ∨ h = some p) → Uses s.vm (.page h n) f → ∀ o < pgSize, t.ram (f + o) = s.ram (f + o)

theorem Carries.trans (h : Carries M s t p K) (k : Carries M t u p K) : Carries M s u p K where
  core := k.core
  cr3 := k.cr3.trans h.cr3
  kept hh n f cond use := k.kept hh n f cond (h.kept hh n f cond use)
  back n f use := h.back n f (k.back n f use)
  ram hh n f cond use o ho := (k.ram hh n f cond (h.kept hh n f cond use) o ho).trans (h.ram hh n f cond use o ho)

theorem Allocated.carries {m cnt : Nat} (new : Allocated M s t m cnt) : Carries M s t p K where
  core := new.core
  cr3 := new.cr3
  kept _ _ f _ use := new.kept _ f use
  back n f use := by
    rcases new.only _ f use with old | ⟨k, -, no⟩
    · exact old
    · cases no
  ram hh n f _ use := new.ram hh n f use

theorem NewSpace.carries {m : Nat} (new : NewSpace M s t m) (other : p ≠ m * pgSize) : Carries M s t p K where
  core := new.core
  cr3 := new.cr3
  kept h n f cond use := (new.uses h n f (by
    rcases cond with ⟨rfl, -⟩ | rfl
    · exact nofun
    · exact fun same => other (Option.some.inj same))).1 use
  back n f use := by
    rcases (new.uses _ n f fun same => other (Option.some.inj same)).2 use with old | ⟨no, -⟩
    · exact old
    · cases no
  ram h n f _ use := new.ram h n f use

/-- The bitmap of an address space without pages may be any. -/
theorem Spaces.adopt_carries (core : PageCore M s.vm) {bits : Nat} (empty : ∀ n f, ¬ Uses s.vm (.page (some q) n) f) :
    Carries M s (s.adopt q bits) p K where
  core := core.samePhys ⟨rfl, rfl, rfl, rfl⟩ fun h n f use res => by
    refine ⟨res.1, ?_⟩
    have bit := res.2
    cases h with
    | none => exact bit
    | some x =>
      have other : x ≠ q := by
        rintro rfl
        exact empty n f use
      rw [VM.vaddrBit] at bit ⊢
      dsimp only [Spaces.adopt]
      rwa [Function.update_of_ne other]
  cr3 := rfl
  kept _ _ _ _ use := use
  back _ _ use := use
  ram _ _ _ _ _ _ _ := rfl

theorem Copying.carries {np nq i : Nat} (ready : CopyReady M s np nq B) (h : Copying M s t np nq B i) :
    Carries M s t (np * pgSize) (fun n => 0xc0100 ≤ n ∧ n ≠ B) where
  core := h.core
  cr3 := h.cr3
  kept _ _ f _ use := h.kept _ f use
  back n f use := by
    rcases h.only _ n f use with old | ⟨same, -⟩
    · exact old
    · have eq := Option.some.inj same
      exact absurd (Nat.eq_of_mul_eq_mul_right (by decide) eq) ready.other
  ram hh n f cond use := h.ram hh n f use fun kernel => by
    rcases cond with ⟨-, cond⟩ | user
    · exact cond
    · rw [kernel] at user
      cases user

/-- The bits of a bitmap in kernel pages that are carried over. -/
theorem Carries.bitmapAt (h : Carries M s t p K) (core : PageCore M s.vm) {m cnt i : Nat}
    (pages : ∀ k < cnt, ∃ f, Uses s.vm (.page none (m + k)) f) (inK : ∀ k < cnt, K (m + k)) (hi : i / 8 < cnt * pgSize) :
    t.bitmapAt (m * pgSize) i = s.bitmapAt (m * pgSize) i := by
  choose! F hF using pages
  have page : i / 8 / pgSize < cnt := Nat.div_lt_of_lt_mul (by rwa [Nat.mul_comm])
  have there := core.phys_range (k := i / 8) hF (fun _ no => nomatch no) hi
  have there' := h.core.phys_range (k := i / 8) (fun k hk => h.kept _ _ _ (.inl ⟨rfl, inK k hk⟩) (hF k hk))
    (fun _ no => nomatch no) hi
  rw [bitmapAt_eq there, bitmapAt_eq there']
  rw [h.ram _ _ _ (.inl ⟨rfl, inK _ page⟩) (hF _ page) _ (Nat.mod_lt _ (by decide))]

end Views

section Fork
variable {M : Machine} {s t : Forking} {child parent : Nat} {α : Type}

theorem wp_onSpaces {c : Kern Spaces α} {Q : α → Forking → Prop} {E : Fault → Prop} :
    wp (onSpaces c) Q E s ↔ wp c (fun a t => Q a { s with spaces := t }) E s.spaces := wp_zoom

/-- What the PCB of the child has from its parent, with a bitmap and a page directory of its own. -/
structure Inherits (parent child : Pcb) (bits pgdir : Nat) : Prop where
  vaddrStart : child.vaddrStart = parent.vaddrStart
  btmpBytesLen : child.btmpBytesLen = parent.btmpBytesLen
  fdTable : child.fdTable = parent.fdTable
  bits : child.bits = bits
  pgdir : child.pgdir = pgdir

/-- A program name for which there is no room behind it stops the fork. -/
def LongName (s : Forking) (parent : Nat) (e : Fault) : Prop := e = .assertion ∧ 11 ≤ (s.pcb parent).name.length

theorem copyPcb_spec (complete : M.Complete) (other : child ≠ parent) (core : PageCore M s.spaces.vm) {i nb : Nat}
    (found : M.scan s.spaces.vm.kernelVaddr M.kLen bitmapPgCnt = some i)
    (room : bitmapPgCnt ≤ (s.spaces.vm.free M .kernel).card) (bits : (s.pcb parent).bits = nb * pgSize) (high : 0xc0100 ≤ nb)
    (bitmap : ∀ k < bitmapPgCnt, ∃ f, Uses s.spaces.vm (.page none (nb + k)) f) :
    wp (copyPcbVaddrbitmapStack0 M child parent) (fun r t => r = 0 ∧ t.pcb parent = s.pcb parent ∧
        Inherits (s.pcb parent) (t.pcb child) ((vaddrBase .kernel + i) * pgSize) (s.pcb parent).pgdir ∧
        t.spaces.vm.kernelVaddr = setBits s.spaces.vm.kernelVaddr i bitmapPgCnt true ∧
        Allocated M s.spaces t.spaces (vaddrBase .kernel + i) bitmapPgCnt ∧
        SameBytes t.spaces (vaddrBase .kernel + i) nb bitmapPgCnt)
      (LongName s parent) s := by
  rw [copyPcbVaddrbitmapStack0, wp_bind, wp_modify, wp_bind, forkPid, wp_bind, wp_modify, wp_bind, wp_get, wp_pure,
    wp_bind, wp_modify, wp_bind, wp_onSpaces]
  refine wp_mono (kernelPages_spec complete core found (by decide) (by decide) room) ?_ fun _ no => no.elim
  rintro _ u ⟨rfl, kernelVaddr, new⟩
  generalize vaddrBase .kernel + i = n at *
  dsimp only [Option.getD_some]
  rw [wp_bind, wp_get, wp_bind, wp_onSpaces]
  simp only [Forking.setPcb, Function.update_self, Function.update_idem, Function.update_of_ne other.symm]
  rw [bits]
  refine wp_mono (new.filled core high bitmap) ?_ fun _ no => no.elim
  rintro _ _ ⟨r, rfl, new', bytes⟩
  rw [wp_bind, wp_modify, wp_bind, wp_get, wp_bind, wp_assert]
  dsimp only
  simp only [Function.update_self, Function.update_idem]
  refine ⟨fun _ => ?_, fun long => ⟨rfl, Nat.le_of_not_lt long⟩⟩
  rw [wp_bind, wp_modify, wp_pure]
  dsimp only
  simp only [Function.update_self, Function.update_of_ne other.symm]
  exact ⟨trivial, trivial, ⟨rfl, rfl, rfl, rfl, rfl⟩, kernelVaddr, new', bytes⟩

theorem updateInodeOpenCnts_spec (fds : ∀ k < maxFilesOpenPerProc - 3, (s.pcb child).fdTable (3 + k) < maxFileOpen) :
    Succeeds (updateInodeOpenCnts child) (fun _ t => t.spaces = s.spaces ∧ t.pcb = s.pcb) s := by
  apply wp_forRange fun _ (t : Forking) => t.spaces = s.spaces ∧ t.pcb = s.pcb
  · exact ⟨rfl, rfl⟩
  rintro k t hk ⟨spaces, pcb⟩
  rw [wp_bind, wp_get, wp_bind, wp_assert, pcb]
  refine ⟨fun _ => ?_, fun high => high (fds k hk)⟩
  rw [wp_ite]
  refine ⟨fun _ => ?_, fun _ => (wp_pure _).2 ⟨spaces, pcb⟩⟩
  rw [wp_bind, wp_get, wp_modify]
  exact ⟨spaces, pcb⟩

/-- The kernel pages that a fork must not touch. -/
def Besides (B n : Nat) : Prop := 0xc0100 ≤ n ∧ n ≠ B

/-- What has been set up before copy_body_stack3. -/
structure Prepared (M : Machine) (s t : Spaces) (np nb n d B : Nat) : Prop where
  ready : CopyReady M t np d B
  carries : Carries M s t (np * pgSize) (Besides B)
  buffer : Reserved M t.vm none B
  pages : ∀ k < bitmapPgCnt, (∃ f, Uses t.vm (.page none (nb + k)) f) ∧ ∃ f, Uses t.vm (.page none (n + k)) f
  inK : ∀ k < bitmapPgCnt, Besides B (nb + k) ∧ Besides B (n + k)
  differ : ∀ k < bitmapPgCnt, ∀ j < bitmapPgCnt, nb + k ≠ n + j
  apart : B < nb ∨ nb + bitmapPgCnt ≤ B
  high : 0xc0100 ≤ n
  same : SameBytes t n nb bitmapPgCnt

theorem Carries.pagesOf {s t : Spaces} {p : Nat} {K : Nat → Prop} (h : Carries M s t p K) (process : 0 < p) :
    pagesOf t.vm p = pagesOf s.vm p := by
  ext n
  rw [mem_pagesOf process, mem_pagesOf process]
  exact ⟨fun ⟨f, use⟩ => ⟨f, h.back n f use⟩, fun ⟨f, use⟩ => ⟨f, h.kept _ n f (.inr rfl) use⟩⟩

/-- Pages of the kernel that were there are no new ones. -/
theorem Allocated.away {s t : Spaces} (new : Allocated M s t n cnt) {m : Nat} (res : Reserved M s.vm none m) :
    m < n ∨ n + cnt ≤ m := by
  by_contra inside
  exact new.fresh (m - n) (by omega) (by rwa [show n + (m - n) = m by omega])

theorem Allocated.differ {s t : Spaces} {n cnt m k : Nat} (new : Allocated M s t n cnt) (hk : k < cnt)
    (res : Reserved M s.vm none m) : m ≠ n + k := by
  rintro rfl
  exact new.fresh k hk res

/-- Two bitmaps in pages that hold the same. -/
theorem SameBytes.bitmapAt {s : Spaces} {n m cnt i : Nat} (same : SameBytes s n m cnt) (core : PageCore M s.vm)
    (pages : ∀ k < cnt, ∃ f, Uses s.vm (.page none (n + k)) f) (pages' : ∀ k < cnt, ∃ f, Uses s.vm (.page none (m + k)) f)
    (hi : i / 8 < cnt * pgSize) : s.bitmapAt (n * pgSize) i = s.bitmapAt (m * pgSize) i := by
  choose! D hD using pages
  choose! F hF using pages'
  have page : i / 8 / pgSize < cnt := Nat.div_lt_of_lt_mul (by rwa [Nat.mul_comm])
  rw [bitmapAt_eq (core.phys_range (k := i / 8) hD (fun _ no => nomatch no) hi),
    bitmapAt_eq (core.phys_range (k := i / 8) hF (fun _ no => nomatch no) hi),
    same _ page _ _ (hD _ page) (hF _ page) _ (Nat.mod_lt _ (by decide))]

/-- Pages that hold the same still do after both are carried over. -/
theorem Carries.sameBytes {s t : Spaces} {p n m cnt : Nat} {K : Nat → Prop} (h : Carries M s t p K)
    (pages : ∀ k < cnt, (∃ f, Uses s.vm (.page none (n + k)) f) ∧ ∃ f, Uses s.vm (.page none (m + k)) f)
    (inK : ∀ k < cnt, K (n + k) ∧ K (m + k)) (same : SameBytes s n m cnt) : SameBytes t n m cnt := by
  intro k hk d f hd hf o ho
  obtain ⟨⟨d', hd'⟩, f', hf'⟩ := pages k hk
  have first : (none : Option Nat) = none ∧ K (n + k) ∨ none = some p := .inl ⟨rfl, (inK k hk).1⟩
  have second : (none : Option Nat) = none ∧ K (m + k) ∨ none = some p := .inl ⟨rfl, (inK k hk).2⟩
  cases hd.fun (h.kept _ _ _ first hd')
  cases hf.fun (h.kept _ _ _ second hf')
  rw [h.ram _ _ _ first hd' o ho, h.ram _ _ _ second hf' o ho]
  exact same k hk _ _ hd' hf' o ho

/-- Everything before copy_body_stack3, from the state s: the buffer B, the bitmap n and the page directory d. -/
theorem prepared {s u v w : Spaces} {parent : Pcb} {np nb n d B : Nat} (forkable : Forkable M s parent np nb)
    (enough : Enough M s.vm parent.pgdir) (buffer : Allocated M s u B 1) (bitmap : Allocated M u v n bitmapPgCnt)
    (same : SameBytes v n nb bitmapPgCnt) (dir : NewSpace M v w d) :
    Prepared M s (w.adopt (d * pgSize) (n * pgSize)) np nb n d B := by
  have np_high := forkable.dir.kernel_bounds
  have process : 0 < np * pgSize := Nat.mul_pos (by omega) (by decide)
  have some_pages : 0 < bitmapPgCnt := by decide
  have others : np ≠ d := by
    rintro rfl
    exact dir.fresh ((bitmap.reserved none np).2 (.inl ((buffer.reserved none np).2 (.inl forkable.dir))))
  have dirs : np * pgSize ≠ d * pgSize := fun eq => others (Nat.eq_of_mul_eq_mul_right (by decide) eq)
  -- where the pages are
  have old_high (k : Nat) (hk : k < bitmapPgCnt) : 0xc0100 ≤ nb + k := (forkable.bitmap k hk).1.kernel_bounds.1
  have old_differ (k : Nat) (hk : k < bitmapPgCnt) : nb + k ≠ B := by
    have differ := Allocated.differ buffer Nat.one_pos (forkable.bitmap k hk).1
    rwa [Nat.add_zero] at differ
  have taken : Reserved M u.vm none B := (buffer.reserved none B).2 (.inr ⟨rfl, Nat.le_refl B, Nat.lt_succ_self B⟩)
  have new_differ (k : Nat) (hk : k < bitmapPgCnt) : n + k ≠ B := (Allocated.differ bitmap hk taken).symm
  have inK (k : Nat) (hk : k < bitmapPgCnt) : Besides B (nb + k) ∧ Besides B (n + k) :=
    ⟨⟨old_high k hk, old_differ k hk⟩, Nat.le_trans bitmap.high (Nat.le_add_right n k), new_differ k hk⟩
  -- what is carried along
  have carries₁ : Carries M s u (np * pgSize) (Besides B) := Allocated.carries buffer
  have carries₂ : Carries M s v (np * pgSize) (Besides B) := carries₁.trans (Allocated.carries bitmap)
  have carries₃ : Carries M v w (np * pgSize) (Besides B) := NewSpace.carries dir dirs
  have carries₄ : Carries M w (w.adopt (d * pgSize) (n * pgSize)) (np * pgSize) (Besides B) :=
    Spaces.adopt_carries dir.core dir.empty
  have pages (k : Nat) (hk : k < bitmapPgCnt) :
      (∃ f, Uses v.vm (.page none (nb + k)) f) ∧ ∃ f, Uses v.vm (.page none (n + k)) f :=
    ⟨(forkable.bitmap k hk).2.imp fun f use => carries₂.kept _ _ f (.inl ⟨rfl, (inK k hk).1⟩) use, bitmap.pages k hk⟩
  have pages' (k : Nat) (hk : k < bitmapPgCnt) :
      (∃ f, Uses w.vm (.page none (nb + k)) f) ∧ ∃ f, Uses w.vm (.page none (n + k)) f :=
    ⟨(pages k hk).1.imp fun f use => carries₃.kept _ _ f (.inl ⟨rfl, (inK k hk).1⟩) use,
      (pages k hk).2.imp fun f use => carries₃.kept _ _ f (.inl ⟨rfl, (inK k hk).2⟩) use⟩
  have carries := (carries₂.trans carries₃).trans carries₄
  have same' : SameBytes w n nb bitmapPgCnt :=
    carries₃.sameBytes (fun k hk => (pages k hk).symm) (fun k hk => (inK k hk).symm) same
  have bits {i : Nat} (hi : i < parent.btmpBytesLen * 8) : i / 8 < bitmapPgCnt * pgSize := by
    have size : (0xc0000000 - userVaddrStart) / pgSize / 8 ≤ bitmapPgCnt * pgSize := by decide
    rw [forkable.btmpBytesLen] at hi
    omega
  have recorded (m f : Nat) (use : Uses s.vm (.page (some (np * pgSize)) m) f) :
      firstPage ≤ m ∧ Reserved M (w.adopt (d * pgSize) (n * pgSize)).vm (some (d * pgSize)) m := by
    have res : Reserved M s.vm (some (np * pgSize)) m := by
      rcases forkable.core.reserved _ _ _ use with res | ⟨no, -⟩
      · exact res
      · cases no
    obtain ⟨⟨low, high⟩, -⟩ := res
    have child : 0 < d * pgSize := Nat.mul_pos (Nat.lt_of_lt_of_le (by decide) dir.high) (by decide)
    rw [userVaddrLen, if_neg (Nat.ne_of_gt process)] at high
    have inside : m - firstPage < parent.btmpBytesLen * 8 := by
      rw [forkable.btmpBytesLen, firstPage]
      omega
    have bit := (forkable.recorded (m - firstPage) inside).2 ⟨f, by
      rwa [forkable.pgdir, firstPage, Nat.add_sub_cancel' low]⟩
    rw [forkable.bits, ← (carries₂.trans carries₃).bitmapAt forkable.core (fun k hk => (forkable.bitmap k hk).2)
      (fun k hk => (inK k hk).1) (bits inside), ← SameBytes.bitmapAt same' dir.core (fun k hk => (pages' k hk).2)
      (fun k hk => (pages' k hk).1) (bits inside)] at bit
    have len : userVaddrLen (d * pgSize) = (0xc0000000 - userVaddrStart) / pgSize / 8 * 8 := by
      rw [userVaddrLen, if_neg (Nat.ne_of_gt child)]
    have inVaddr : InVaddr M (some (d * pgSize)) m := ⟨low, len ▸ high⟩
    refine ⟨low, inVaddr, ?_⟩
    rw [VM.vaddrBit]
    dsimp only [Spaces.adopt]
    rw [Function.update_self]
    exact bit
  exact
    { ready :=
        { core := carries.core
          active := by rw [carries.cr3, forkable.active, forkable.pgdir]
          parent := ⟨by omega, np_high.2⟩
          child := ⟨Nat.le_trans (by decide) dir.high, dir.low⟩
          other := others
          buffer := by
            obtain ⟨b, use⟩ := buffer.pages 0 Nat.one_pos
            exact ⟨b, (dir.uses none B b (fun no => absurd no.symm (Option.some_ne_none _))).1 (bitmap.kept _ b use)⟩
          high := buffer.high
          recorded := fun m f use => recorded m f (carries.back m f use)
          empty := dir.empty
          noTable := dir.noTable
          frames := by
            have free : (w.adopt (d * pgSize) (n * pgSize)).vm.free M .user = w.vm.free M .user := free_congr rfl
            rw [carries.pagesOf process, free, dir.user, bitmap.user, buffer.user, ← forkable.pgdir]
            exact enough.frames
          tables := by
            have free : (w.adopt (d * pgSize) (n * pgSize)).vm.free M .kernel = w.vm.free M .kernel := free_congr rfl
            have room := enough.kernelFrames
            rw [tablesOf, forkable.pgdir, ← carries.pagesOf process, ← tablesOf, buffer.frames, bitmap.frames, dir.frames] at room
            rw [free]
            omega }
      carries := carries
      buffer := dir.reserved none B ((bitmap.reserved none B).2 (.inl taken))
      pages := pages'
      inK := inK
      differ := fun k hk j hj => Allocated.differ bitmap hj ((buffer.reserved none _).2 (.inl (forkable.bitmap k hk).1))
      apart := by
        by_contra overlap
        exact old_differ (B - nb) (by omega) (by omega)
      high := bitmap.high
      same := same' }

/-- copy_body_stack3 finds the bits of the parent in its bitmap. -/
theorem Prepared.read {s t : Spaces} {p : Pcb} {np nb n d B : Nat} (prepared : Prepared M s t np nb n d B)
    (forkable : Forkable M s p np nb) : ∃ byte, BitmapRead M t np d B p.bits p.btmpBytesLen byte := by
  have carries := prepared.carries
  choose! F hF using fun k hk => (prepared.pages k hk).1
  have size : (0xc0000000 - userVaddrStart) / pgSize / 8 ≤ bitmapPgCnt * pgSize := by decide
  have high := (prepared.inK 0 (by decide)).1.1
  rw [forkable.bits]
  refine ⟨_, prepared.ready.read hF high prepared.apart (forkable.btmpBytesLen ▸ size) fun i hi => ?_⟩
  have byte : i / 8 < bitmapPgCnt * pgSize := by
    rw [forkable.btmpBytesLen] at hi
    omega
  rw [carries.bitmapAt forkable.core (fun k hk => (forkable.bitmap k hk).2) (fun k hk => (prepared.inK k hk).1) byte,
    ← forkable.bits, forkable.recorded i hi, forkable.pgdir]
  exact ⟨fun ⟨f, use⟩ => ⟨f, carries.kept _ _ f (.inr rfl) use⟩, fun ⟨f, use⟩ => ⟨f, carries.back _ f use⟩⟩

/-- Giving the buffer back touches no other page. -/
theorem Freed.carries {s : Spaces} {vm : VM} {p B : Nat} (core : PageCore M vm) (freed : Freed M s.vm vm none B 1) :
    Carries M s { s with vm := vm } p (Besides B) where
  core := core
  cr3 := rfl
  kept h n f cond use := by
    refine (freed.uses _ f).2 ⟨use, ?_⟩
    rw [inRange_page]
    rintro ⟨rfl, low, high⟩
    rcases cond with ⟨-, -, other⟩ | no
    · omega
    · cases no
  back n f use := ((freed.uses _ f).1 use).1
  ram _ _ _ _ _ _ _ := rfl

/-- What copy_body_stack3 and mfree_page leave. -/
theorem Prepared.copied {s w v : Spaces} {vm : VM} {p c : Pcb} {np nb n d B : Nat} (prepared : Prepared M s w np nb n d B)
    (forkable : Forkable M s p np nb) (inherits : Inherits p c (n * pgSize) (d * pgSize))
    (copying : Copying M w v np d B (p.btmpBytesLen * 8)) (core : PageCore M vm) (freed : Freed M v.vm vm none B 1) :
    ForkCopied s { v with vm := vm } p c := by
  have ready := prepared.ready
  have carries₁ := copying.carries ready
  have carries₂ : Carries M v { v with vm := vm } (np * pgSize) (Besides B) := Freed.carries core freed
  have carries := (prepared.carries.trans carries₁).trans carries₂
  have process : 0 < np * pgSize := Nat.mul_pos (by have := ready.parent; omega) (by decide)
  have process' : 0 < d * pgSize := Nat.mul_pos (by have := ready.child; omega) (by decide)
  have len : p.btmpBytesLen * 8 = (0xc0000000 - userVaddrStart) / pgSize / 8 * 8 := by rw [forkable.btmpBytesLen]
  have bits {i : Nat} (hi : i < p.btmpBytesLen) : i < bitmapPgCnt * pgSize := by
    have size : (0xc0000000 - userVaddrStart) / pgSize / 8 ≤ bitmapPgCnt * pgSize := by decide
    rw [forkable.btmpBytesLen] at hi
    omega
  -- a page of the parent has come by, and its copy is still there
  have there (m f : Nat) (use : Uses w.vm (.page (some (np * pgSize)) m) f) : ∃ g, Uses vm (.page (some (d * pgSize)) m) g ∧
      ∀ o < pgSize, v.ram (g + o) = v.ram (f + o) := by
    have inside : m < firstPage + p.btmpBytesLen * 8 := by
      have res := (ready.recorded m f use).2.1.2
      rw [len]
      rwa [userVaddrLen, if_neg (Nat.ne_of_gt process')] at res
    obtain ⟨g, use', same⟩ := copying.copied m f inside use
    refine ⟨g, (freed.uses _ g).2 ⟨use', ?_⟩, fun o ho => ?_⟩
    · rw [inRange_page]
      rintro ⟨no, -⟩
      cases no
    · rw [same o ho, carries₁.ram _ _ _ (.inr rfl) use o ho]
  have pages (k : Nat) (hk : k < bitmapPgCnt) :
      (∃ f, Uses vm (.page none (nb + k)) f) ∧ ∃ f, Uses vm (.page none (n + k)) f := by
    obtain ⟨⟨f, old⟩, g, new⟩ := prepared.pages k hk
    have both := prepared.inK k hk
    exact ⟨⟨f, (carries₁.trans carries₂).kept _ _ f (.inl ⟨rfl, both.1⟩) old⟩,
      g, (carries₁.trans carries₂).kept _ _ g (.inl ⟨rfl, both.2⟩) new⟩
  have same : SameBytes { v with vm := vm } n nb bitmapPgCnt :=
    (carries₁.trans carries₂).sameBytes (fun k hk => (prepared.pages k hk).symm) (fun k hk => (prepared.inK k hk).symm)
      prepared.same
  have above {m f : Nat} (use : Uses vm (.page (some (d * pgSize)) m) f) : 0x100000 ≤ f := by
    rcases core.marked _ f use with marked | ⟨k, -, no, -⟩
    · exact Nat.le_trans (by decide) marked.ge
    · cases no
  constructor
  · rw [inherits.pgdir, forkable.pgdir]
    exact fun eq => ready.other (Nat.eq_of_mul_eq_mul_right (by decide) eq).symm
  · intro vaddr low
    rw [inherits.pgdir, forkable.pgdir]
    refine seen_congr core core process process' (fun m f use => there m f ?_) (fun m g use => ?_) low
    · exact (carries₁.trans carries₂).back m f use
    · rcases copying.only _ m g ((freed.uses _ g).1 use).1 with old | ⟨-, -, f, old⟩
      · exact (ready.empty m g old).elim
      · exact ⟨f, (carries₁.trans carries₂).kept _ m f (.inr rfl) old⟩
  · intro vaddr low
    rw [forkable.pgdir]
    exact seen_congr forkable.core core process process
      (fun m f use => ⟨f, carries.kept _ m f (.inr rfl) use, carries.ram _ m f (.inr rfl) use⟩)
      (fun m f use => ⟨f, carries.back m f use⟩) low
  · intro m f
    rw [forkable.pgdir]
    exact ⟨carries.back m f, carries.kept _ m f (.inr rfl)⟩
  · intro m f sl use use'
    rw [inherits.pgdir] at use ⊢
    exact core.uniq _ _ f use' use (above use)
  · intro i hi
    have byte : i / 8 < bitmapPgCnt * pgSize := bits (by omega)
    rw [inherits.bits, forkable.bits]
    refine ⟨SameBytes.bitmapAt same core (fun k hk => (pages k hk).2) (fun k hk => (pages k hk).1) byte, ?_⟩
    exact carries.bitmapAt forkable.core (fun k hk => (forkable.bitmap k hk).2) (fun k hk => (prepared.inK k hk).1) byte
  · intro i hi j hj
    choose! F hF using fun k hk => (pages k hk).1
    choose! D hD using fun k hk => (pages k hk).2
    have page {k : Nat} (hk : k < p.btmpBytesLen) : k / pgSize < bitmapPgCnt :=
      Nat.div_lt_of_lt_mul (by rw [Nat.mul_comm]; exact bits hk)
    rw [inherits.bits, forkable.bits]
    refine ⟨_, _, PageCore.phys_range (s := { v with vm := vm }) core hD (fun _ no => by cases no) (bits hi),
      PageCore.phys_range (s := { v with vm := vm }) core hF (fun _ no => by cases no) (bits hj), ?_⟩
    refine core.bytes_apart (hD _ (page hi)) (hF _ (page hj)) (fun _ => (prepared.inK _ (page hj)).1.1) ?_
      (Nat.mod_lt _ (by decide)) (Nat.mod_lt _ (by decide))
    rintro ⟨-, eq⟩
    exact prepared.differ _ (page hj) _ (page hi) eq.symm
  · exact ⟨inherits.vaddrStart, inherits.btmpBytesLen⟩
  · rw [carries.cr3, forkable.active]

/-- A fork for which there is memory copies the address space of the parent, whatever pages it has; only a long
name of the program stops it. -/
theorem fork_copies (complete : M.Complete) (exitAddr : Nat) (other : child ≠ parent) {np nb : Nat}
    (forkable : Forkable M s.spaces (s.pcb parent) np nb) (enough : Enough M s.spaces.vm (s.pcb parent).pgdir) :
    wp (copyProcess M exitAddr child parent)
      (fun r t => r = 0 ∧ t.pcb parent = s.pcb parent ∧ ForkCopied s.spaces t.spaces (s.pcb parent) (t.pcb child))
      (LongName s parent) s := by
  obtain ⟨i, j, k, scan₁, scan₂, scan₃⟩ := enough.vaddr
  have room := enough.kernelFrames
  rw [copyProcess, wp_bind, wp_onSpaces]
  refine wp_mono (kernelPages_spec complete forkable.core scan₁ (by decide) (by decide) (by omega)) ?_ fun _ no => no.elim
  rintro _ u ⟨rfl, vaddr₁, buffer⟩
  have frames₁ := buffer.frames
  have old (k : Nat) (hk : k < bitmapPgCnt) : ∃ f, Uses u.vm (.page none (nb + k)) f :=
    (forkable.bitmap k hk).2.imp fun f use => buffer.kept _ f use
  have high : 0xc0100 ≤ nb := (forkable.bitmap 0 (by decide)).1.kernel_bounds.1
  dsimp only
  rw [wp_bind]
  refine wp_mono (copyPcb_spec (s := { s with spaces := u }) complete other buffer.core (by rw [vaddr₁]; exact scan₂) (by
    dsimp only
    omega) forkable.bits high old) ?_ fun _ long => long
  rintro _ a ⟨rfl, parent₁, inherits, vaddr₂, bitmap, same⟩
  have frames₂ : (u.vm.free M .kernel).card = (a.spaces.vm.free M .kernel).card + bitmapPgCnt := bitmap.frames
  have bound : (s.spaces.vm.free M .kernel).card = (u.vm.free M .kernel).card + 1 := frames₁
  have scan : M.scan a.spaces.vm.kernelVaddr M.kLen 1 = some k := by
    rw [vaddr₂]
    dsimp only
    rw [vaddr₁]
    exact scan₃
  rw [if_neg (by decide), wp_bind, wp_onSpaces]
  refine wp_mono (createPageDir_spec complete bitmap.core scan (by omega)) ?_ fun _ no => no.elim
  rintro _ w ⟨rfl, dir⟩
  have prep := prepared forkable enough buffer bitmap same dir
  generalize vaddrBase .kernel + i = B at *
  generalize vaddrBase .kernel + j = n at *
  generalize vaddrBase .kernel + k = d at *
  dsimp only
  rw [wp_bind, setPgdir, wp_bind, wp_modify, wp_modify, wp_bind, wp_get]
  dsimp only [Forking.setPcb]
  simp only [Function.update_self, Function.update_of_ne other.symm]
  replace parent₁ : a.pcb parent = s.pcb parent := parent₁
  replace inherits : Inherits (s.pcb parent) (a.pcb child) (n * pgSize) (s.pcb parent).pgdir := inherits
  have inherits' : Inherits (s.pcb parent) { a.pcb child with pgdir := d * pgSize } (n * pgSize) (d * pgSize) :=
    ⟨inherits.vaddrStart, inherits.btmpBytesLen, inherits.fdTable, inherits.bits, rfl⟩
  generalize ({ a.pcb child with pgdir := d * pgSize } : Pcb) = c at *
  obtain ⟨byte, read⟩ := prep.read forkable
  rw [inherits.bits, parent₁, wp_bind, wp_onSpaces]
  refine wp_mono (copyBody_spec complete prep.ready read forkable.vaddrStart forkable.pgdir inherits'.pgdir) ?_
    fun _ no => no.elim
  rintro _ v copying
  rw [wp_bind, wp_modify, wp_bind]
  refine wp_mono (updateInodeOpenCnts_spec ?_) ?_ fun _ no => no.elim
  · dsimp only
    rw [Function.update_self, inherits'.fdTable]
    exact forkable.fds
  rintro _ b ⟨spaces, pcb⟩
  replace spaces : b.spaces = v := spaces
  replace pcb : b.pcb = Function.update a.pcb child c := pcb
  rw [wp_bind, wp_get, wp_bind, wp_onSpaces, wp_onPages, spaces]
  have single (k : Nat) (hk : k < 1) : Reserved M v.vm none (B + k) ∧ ∃ f, Uses v.vm (.page none (B + k)) f := by
    rw [Nat.lt_one_iff.1 hk, Nat.add_zero]
    exact ⟨copying.virt.reserved.2 prep.buffer, prep.ready.buffer.imp fun f use => copying.kept _ f use⟩
  refine wp_mono (mfreePage_spec copying.core Nat.one_pos (fun k hk => (show Reserved M _ (half _ .kernel) _ from (single k hk).1))
    fun k hk => (single k hk).2) ?_ fun _ no => no.elim
  rintro _ vm ⟨core, freed, -⟩
  rw [wp_pure]
  dsimp only
  rw [pcb, Function.update_self, Function.update_of_ne other.symm]
  exact ⟨rfl, parent₁, prep.copied forkable inherits' copying core freed⟩

end Fork

/-! A process with two pages forks. -/

theorem firstFit_scan (bits : Nat → Bool) (len cnt i : Nat) (h : firstFit bits len cnt len 0 = some i) :
    i + cnt ≤ len ∧ ∀ k < cnt, bits (i + k) = false :=
  firstFit_ok len 0 h

/-- Pools of 64 and of 8 frames. -/
def roomy : Machine where
  scan bits len cnt := firstFit bits len cnt len 0
  kLen := 64
  uLen := 8
  uStart := 0x240000
  scan_ok := firstFit_scan
  kLen_small := by decide
  uStart_aligned := by decide
  pools := by decide

theorem roomy_complete : roomy.Complete :=
  fun _ len none i low => firstFit_none len 0 none i (Nat.zero_le i) (by omega) low

def nobody : Pcb := ⟨0, .running, [], 31, 31, 0, fun _ => -1, (0, 0), (0, 0), 0, 0, 0, 0, blockDescInit, 0⟩

/-- The page directory is the first page of the kernel's heap, and the bitmap lies behind it. -/
def twoPagePcb : Pcb := { nobody with
  pid := 1
  name := "shell".toUTF8.toList
  pgdir := 0xc0100 * pgSize
  vaddrStart := userVaddrStart
  bits := 0xc0101 * pgSize
  btmpBytesLen := (0xc0000000 - userVaddrStart) / pgSize / 8 }

/-- The process 1 with its two pages. -/
theorem twoPages_ready : ∃ s : Spaces, Forkable roomy s twoPagePcb 0xc0100 0xc0101 ∧ Enough roomy s.vm twoPagePcb.pgdir ∧
    ∀ k < 2, ∃ f, Uses s.vm (.page (some twoPagePcb.pgdir) (firstPage + k)) f := by
  have core₀ : PageCore roomy tinyStart := (pageInv_start tinyStart_start).core
  have scan₁ : roomy.scan tinyStart.kernelVaddr roomy.kLen 1 = some 0 := by decide +kernel
  obtain ⟨_, s₁, -, -, vaddr₁, dir⟩ := succeeds_iff.1 (kernelPages_spec (s := ⟨tinyStart, 0, fun _ => 0⟩) roomy_complete
    core₀ scan₁ (by decide) (by decide) (by decide +kernel))
  have scan₂ : roomy.scan s₁.vm.kernelVaddr roomy.kLen bitmapPgCnt = some 1 := by
    rw [vaddr₁]
    decide +kernel
  have frames₀ : (tinyStart.free roomy .kernel).card = 64 ∧ (tinyStart.free roomy .user).card = 8 := by decide +kernel
  have frames₁ : (tinyStart.free roomy .kernel).card = (s₁.vm.free roomy .kernel).card + 1 := dir.frames
  have cnt : bitmapPgCnt = 23 := by decide
  obtain ⟨_, s₂, -, -, vaddr₂, bitmap⟩ := succeeds_iff.1 (kernelPages_spec roomy_complete dir.core scan₂ (by decide)
    (by decide) (by omega))
  have frames₂ := bitmap.frames
  -- vaddr_get has set the bits of the pages
  let p := 0xc0100 * pgSize
  have phys : SamePhys s₂.vm (s₂.vm.reserve .user p 0 2 true) := reserve_samePhys
  have kept (h : Option Nat) (n : Nat) (res : Reserved roomy s₂.vm h n) : Reserved roomy (s₂.vm.reserve .user p 0 2 true) h n := by
    refine ⟨res.1, ?_⟩
    rw [vaddrBit_reserve res.1, res.2, ite_self]
  have core₃ := bitmap.core.samePhys phys fun h n _ _ => kept h n
  have noUser (n f : Nat) : ¬ Uses (s₂.vm.reserve .user p 0 2 true) (.page (some p) n) f := by
    intro use
    rcases bitmap.only _ f (phys.uses.1 use) with use | ⟨_, _, no⟩
    · rcases dir.only _ f use with ⟨process, low, there, -⟩ | ⟨_, _, no⟩
      · rw [tinyStart_start.user_pde p _ process (by omega)] at there
        cases there
      · cases no
    · cases no
  have res (k : Nat) (hk : k < 2) : Reserved roomy (s₂.vm.reserve .user p 0 2 true) (some p) (firstPage + k) := by
    have room : firstPage + 2 ≤ userVaddrStart / pgSize + userVaddrLen p := by decide
    have inside : InVaddr roomy (some p) (firstPage + k) := ⟨Nat.le_add_right .., by omega⟩
    refine ⟨inside, ?_⟩
    rw [vaddrBit_reserve inside, if_pos ⟨rfl, Nat.le_add_right .., Nat.add_lt_add_left hk _⟩]
  have user₂ : (s₂.vm.reserve .user p 0 2 true).free roomy .user = tinyStart.free roomy .user :=
    free_reserve.trans (bitmap.user.trans dir.user)
  have kernel₂ : (s₂.vm.reserve .user p 0 2 true).free roomy .kernel = s₂.vm.free roomy .kernel := free_reserve
  obtain ⟨_, vm₁, -, core₁, ext₁, mapped₁, fewer₁, tables₁⟩ := succeeds_iff.1 (forkPage_takes roomy_complete core₃
    (res 0 (by decide)) (noUser _) (by rw [user₂]; omega) (.inr (by rw [kernel₂]; omega)))
  have table : (vm₁.pde p ((firstPage + 1) / 1024)).present = true := by
    obtain ⟨f, use⟩ := mapped₁
    exact use.2.2.1
  have noSecond (f : Nat) : ¬ Uses vm₁ (.page (some p) (firstPage + 1)) f :=
    ext₁.unused (noUser _) (fun same => absurd (Slot.page.inj same).2 (by decide)) f
  obtain ⟨_, vm, -, core, ext₂, mapped₂, fewer₂, tables₂⟩ := succeeds_iff.1 (forkPage_takes roomy_complete core₁
    (ext₁.virt.reserved.2 (res 1 (by decide))) noSecond (by rw [user₂] at fewer₁; omega) (.inl table))
  have ext := ext₁.trans ext₂
  have base : vaddrBase .kernel = 0xc0100 := by decide
  rw [base] at dir bitmap
  have reserved (n : Nat) (low : 0xc0100 ≤ n) (high : n < 0xc0118) : Reserved roomy vm none n := by
    refine ext.virt.reserved.2 (kept none n ((bitmap.reserved none n).2 ?_))
    by_cases first : n = 0xc0100
    · exact .inl ((dir.reserved none n).2 (.inr ⟨rfl, by omega, by omega⟩))
    · exact .inr ⟨rfl, by omega, by omega⟩
  have pages (k : Nat) (hk : k < bitmapPgCnt) : ∃ f, Uses vm (.page none (0xc0101 + k)) f :=
    (bitmap.pages k hk).imp fun f use => ext.kept _ f (phys.uses.2 use)
  have both (k : Nat) (hk : k < 2) : ∃ f, Uses vm (.page (some p) (firstPage + k)) f := by
    rcases (by omega : k = 0 ∨ k = 1) with rfl | rfl
    · exact mapped₁.imp fun f use => ext₂.kept _ f use
    · exact mapped₂
  have onlyPages (n : Nat) : (∃ f, Uses vm (.page (some p) n) f) ↔ firstPage ≤ n ∧ n < firstPage + 2 := by
    constructor
    · rintro ⟨f, use⟩
      rcases ext.only _ f use with old | (same | same) | ⟨_, _, no⟩
      · exact (noUser n f old).elim
      · have := (Slot.page.inj same).2
        omega
      · have := (Slot.page.inj same).2
        omega
      · cases no
    · rintro ⟨low, high⟩
      obtain ⟨k, rfl⟩ := Nat.exists_eq_add_of_le low
      exact both k (by omega)
  choose! F hF using pages
  let s : Spaces := ⟨vm, p, fun a => if a = F 0 then 3 else 0⟩
  have process : 0 < p := by decide
  have two : (pagesOf vm p).card ≤ 2 := by
    refine Nat.le_trans (Finset.card_le_card (t := {firstPage, firstPage + 1}) fun n mem => ?_) Finset.card_le_two
    have here := (onlyPages n).1 ((mem_pagesOf process).1 mem)
    rw [Finset.mem_insert, Finset.mem_singleton]
    omega
  have twoTables : (tablesOf vm p).card ≤ 2 := Nat.le_trans Finset.card_image_le two
  refine ⟨s, ?_, ?_, both⟩
  · exact
      { core := core
        active := rfl
        pgdir := rfl
        dir := reserved _ (by decide) (by decide)
        vaddrStart := rfl
        btmpBytesLen := rfl
        bits := rfl
        bitmap := fun k hk => ⟨reserved _ (by omega) (by omega), F k, hF k hk⟩
        recorded := by
          intro i hi
          have byte : i / 8 < bitmapPgCnt * pgSize := by
            have size : (0xc0000000 - userVaddrStart) / pgSize / 8 ≤ bitmapPgCnt * pgSize := by decide
            have len : twoPagePcb.btmpBytesLen = (0xc0000000 - userVaddrStart) / pgSize / 8 := rfl
            omega
          have page : i / 8 / pgSize < bitmapPgCnt := Nat.div_lt_of_lt_mul (by rwa [Nat.mul_comm])
          have there := PageCore.phys_range (s := s) (k := i / 8) core hF (fun _ no => nomatch no) byte
          rw [show twoPagePcb.bits = 0xc0101 * pgSize from rfl, bitmapAt_eq there]
          refine Iff.trans ?_ (onlyPages (firstPage + i)).symm
          dsimp only [s]
          by_cases first : i < 8
          · have byte₀ : i / 8 = 0 := Nat.div_eq_of_lt first
            have bits : ∀ i < 8, Nat.testBit 3 i = true ↔ i < 2 := by decide
            rw [byte₀, Nat.zero_div, Nat.zero_mod, Nat.add_zero, if_pos rfl, Nat.mod_eq_of_lt first,
              show (3 : UInt8).toNat = 3 from rfl, bits i first]
            omega
          · have far : F (i / 8 / pgSize) + i / 8 % pgSize ≠ F 0 := by
              by_cases home : i / 8 / pgSize = 0
              · rw [home]
                have low := Nat.div_add_mod (i / 8) pgSize
                rw [home, Nat.mul_zero, Nat.zero_add] at low
                omega
              · refine core.bytes_apart (hF _ page) (hF 0 (by decide)) (fun _ => by omega) ?_ (Nat.mod_lt _ (by decide))
                  (by decide : 0 < pgSize)
                rintro ⟨-, same⟩
                omega
            rw [if_neg far]
            refine iff_of_false ?_ (by omega)
            rw [show (0 : UInt8).toNat = 0 from rfl, Nat.zero_testBit]
            exact nofun
        fds := fun k _ => (by decide : (-1 : Int) < maxFileOpen) }
  · exact
      { frames := by
          rw [user₂] at fewer₁
          exact Nat.le_trans two (by dsimp only [s]; omega)
        kernelFrames := by
          have left₁ := tables₁.kernel
          have left₂ := tables₂.kernel
          rw [kernel₂] at left₁
          refine Nat.le_trans (Nat.add_le_add_left twoTables _) ?_
          dsimp only [s]
          rcases left₂ with ⟨-, -, same⟩ | ⟨absent, -⟩
          · rw [same]
            rcases left₁ with ⟨-, -, same⟩ | ⟨-, -, less⟩
            · rw [same]
              omega
            · omega
          · rw [table] at absent
            cases absent
        vaddr := by
          have vaddr : vm.kernelVaddr = setBits (setBits tinyStart.kernelVaddr 0 1 true) 1 bitmapPgCnt true := by
            rw [ext.virt.1, ← vaddr₁]
            exact vaddr₂
          refine ⟨24, 25, 48, ?_, ?_, ?_⟩ <;> rw [vaddr] <;> decide +kernel }

theorem fork_copies_two_pages : ∃ s : Forking, s.pcb 1 = twoPagePcb ∧
    (∀ k < 2, ∃ f, Uses s.spaces.vm (.page (some twoPagePcb.pgdir) (firstPage + k)) f) ∧
    wp (copyProcess roomy 0 2 1)
      (fun r t => r = 0 ∧ t.pcb 1 = s.pcb 1 ∧ ForkCopied s.spaces t.spaces (s.pcb 1) (t.pcb 2)) (LongName s 1) s := by
  obtain ⟨spaces, forkable, enough, mapped⟩ := twoPages_ready
  exact ⟨⟨spaces, Function.update (fun _ => nobody) 1 twoPagePcb, fun _ => 0, 1, fun _ => 0, fun _ => 0⟩, rfl, mapped,
    fork_copies roomy_complete 0 (by decide) forkable enough⟩

end Zhenxiang.Userprog
