import Zhenxiang.Userprog.Syscall
import Zhenxiang.Paging.HeapsReturned

/-! Which system calls a process can make without harm to the kernel. -/
namespace Zhenxiang.Userprog
open Lib Kernel Paging
open Fs (toInt32 canWrite maxFileOpen maxFilesOpenPerProc)

/-- Between calls the heap is in good order on its pages, the lock of the pool is free, the cursor
is on the screen, and only the standard descriptors are there. -/
structure ProcessInv (M : Machine) (D : Descs) (p : Nat) (s : Process) : Prop where
  heap : HeapOn M D p s.memory.vm s.heap
  lock : s.memory.holder .user = none ∧ s.memory.holderRepeatNr .user = 0
  tlb : TlbFits M (some p) s.memory.vm s.memory.stale
  cursor : s.console.cursor < 80 * 25
  standard : ∀ fd < 3, s.fdTable fd = fd
  rest : ∀ fd, 3 ≤ fd → fd < maxFilesOpenPerProc → s.fdTable fd = -1
  flags : ∀ fd < 3, s.fdFlag fd = 0

section Console
variable {s : Console} {t : Screen} {str : List UInt8} {Q : Unit → Console → Prop}

/-- What put_str prints is what comes before the first zero byte. -/
theorem takeWhile_cons_ne {c : UInt8} (other : c ≠ 0) :
    (c :: str).takeWhile (· ≠ 0) = c :: str.takeWhile (· ≠ 0) := by
  rw [List.takeWhile_cons, if_pos (decide_eq_true other)]

theorem putStr_shows (shows : Shows s t) (zero : 0 ∈ str) (ok : NoUnderrun t (str.takeWhile (· ≠ 0))) :
    Succeeds (putStr str) (fun _ u => InPage s u ∧ Shows u (Console.play t (str.takeWhile (· ≠ 0)))) s := by
  induction str generalizing s t with
  | nil => exact absurd zero List.not_mem_nil
  | cons c cs ih =>
    by_cases last : c = 0
    · rw [putStr, if_pos last, List.takeWhile_cons_of_neg (by simp [last])]
      exact (wp_pure _).2 ⟨.refl, shows⟩
    · rw [takeWhile_cons_ne last] at ok ⊢
      rw [putStr, if_neg last, Succeeds, wp_bind]
      have here : c = 0x8 → t.cursor ≠ 0 := by
        rintro rfl
        exact ok [] _ rfl
      refine wp_post (putChar_shows shows here) ?_
      rintro _ u ⟨page, shows'⟩
      have rest : 0 ∈ cs := (List.mem_cons.1 zero).resolve_left fun same => last same.symm
      refine wp_post (ih shows' rest fun before rest eq => ?_) ?_
      · exact ok (c :: before) rest (by rw [eq, List.cons_append])
      · exact fun _ v post => ⟨page.trans post.1, post.2⟩

end Console

section Calls
variable {M : Machine} {D : Descs} {p : Nat} {fileWrite : FileWrite} {W : World} {r : Regs} {s : Process}

theorem wp_onConsole {α : Type} {c : Kern Console α} {Q : α → Process → Prop} {E : Fault → Prop} :
    wp (onConsole c) Q E s ↔ wp c (fun a console => Q a { s with console := console }) E s.console := wp_zoom

theorem wp_onMemory {α : Type} {c : Kern Memory α} {Q : α → Process → Prop} {E : Fault → Prop} :
    wp (onMemory c) Q E s ↔ wp c (fun a memory => Q a { s with memory := memory }) E s.memory := wp_zoom

/-- Printing does not touch what is kept. -/
theorem ProcessInv.print (inv : ProcessInv M D p s) {console : Console} (cursor : console.cursor < 80 * 25) :
    ProcessInv M D p { s with console := console } :=
  ⟨inv.heap, inv.lock, inv.tlb, cursor, inv.standard, inv.rest, inv.flags⟩

/-- What is known after something has been printed. -/
def AfterPrint (M : Machine) (D : Descs) (p : Nat) (s : Process) (out : List UInt8) (t : Process) : Prop :=
  ProcessInv M D p t ∧ Printed s.console t.console out

theorem consolePutStr_spec (inv : ProcessInv M D p s) {str : List UInt8} (zero : 0 ∈ str)
    (ok : NoUnderrun (s.console.screen inv.cursor) (str.takeWhile (· ≠ 0))) :
    Succeeds (consolePutStr str) (fun _ t => AfterPrint M D p s (str.takeWhile (· ≠ 0)) t) s := by
  rw [consolePutStr, Succeeds, wp_onConsole]
  refine wp_post (putStr_shows ⟨rfl, fun _ => rfl⟩ zero ok) ?_
  rintro _ u ⟨page, shows⟩
  exact ⟨inv.print (by rw [shows.cursor]; exact Terminal.inside _), page, fun _ => shows⟩

/-- Messages of the kernel end with a zero byte and have no backspace. -/
theorem putText_spec (inv : ProcessInv M D p s) {text : String} (plain : (0x8 : UInt8) ∉ text.toUTF8.toList) :
    Succeeds (consolePutStr (cString text)) (fun _ t => ProcessInv M D p t) s := by
  refine wp_post (consolePutStr_spec inv (by simp [cString]) fun before rest eq => ?_) fun _ t post => post.1
  have printed : (0x8 : UInt8) ∈ (cString text).takeWhile (· ≠ 0) := by
    rw [eq]
    simp
  have there : (0x8 : UInt8) ∈ cString text := (List.takeWhile_prefix _).subset printed
  simp only [cString, List.mem_append, List.mem_singleton] at there
  exact absurd (there.resolve_right (by decide)) plain

/-- What is printed of a buffer with zeros behind it. -/
theorem takeWhile_padded (bytes : List UInt8) (n : Nat) :
    (bytes ++ List.replicate n 0).takeWhile (· ≠ 0) = bytes.takeWhile (· ≠ 0) := by
  induction bytes with
  | nil => cases n <;> simp [List.replicate_succ]
  | cons x xs ih =>
    by_cases zero : x = 0
    · simp [zero]
    · rw [List.cons_append, takeWhile_cons_ne zero, takeWhile_cons_ne zero, ih]

/-- sys_write to standard output, whatever the buffer and the count are. -/
theorem wp_writeConsole {ram : Nat → Option UInt8} {buf count : Nat} {Q : Int → Process → Prop} :
    Succeeds (sysWrite fileWrite ram 1 buf count) Q s ↔ buf ≠ 0 ∧ count ≤ tmpBufSize ∧ ∃ bytes,
      userBytes ram buf count = some bytes ∧
      Succeeds (consolePutStr (bytes ++ List.replicate (tmpBufSize - count) 0)) (fun _ t => Q count t) s := by
  rw [Succeeds, sysWrite, if_neg (by decide), if_pos rfl, wp_bind, memcpy, wp_bind, wp_assert]
  cases read : userBytes ram buf count with
  | none =>
    rw [wp_throw]
    constructor
    · intro run
      by_cases null : buf = 0
      · exact (run.2 (not_not.2 null)).elim
      · exact (run.1 null).elim
    · rintro ⟨-, -, bytes, no, -⟩
      cases no
  | some bytes =>
    rw [wp_pure, wp_bind, wp_check, wp_bind]
    simp only [wp_pure]
    constructor
    · rintro ⟨run, null⟩
      have there : buf ≠ 0 := fun he => null (not_not.2 he)
      obtain ⟨run, full⟩ := run there
      have room : count ≤ tmpBufSize := by
        by_contra high
        exact full high
      exact ⟨there, room, bytes, rfl, run room⟩
    · rintro ⟨there, room, b, hb, run⟩
      cases hb
      exact ⟨fun _ => ⟨fun _ => run, fun full => full room⟩, fun null => null there⟩

/-- sys_write to a descriptor of the process; only the standard ones are there, and none of
their slots can be written to. -/
theorem writeFile_spec (inv : ProcessInv M D p s) {ram : Nat → Option UInt8} {fd : Int} {buf count : Nat} (pos : 0 ≤ fd)
    (other : fd ≠ 1) {Q : Int → Process → Prop} :
    Succeeds (sysWrite fileWrite ram fd buf count) Q s ↔ (fd = 0 ∨ fd = 2) ∧ Succeeds (consolePutStr
      (cString "sys_write: not allowed to write file without flag O_RDWR or O_WRONLY\n")) (fun _ t => Q (-1) t) s := by
  obtain ⟨n, rfl⟩ := Int.eq_ofNat_of_zero_le pos
  rw [Succeeds, sysWrite, if_neg (Int.not_lt.2 pos), if_neg other, Int.toNat_natCast, wp_bind, fdLocal2global, wp_bind, wp_check,
    wp_bind, wp_get]
  dsimp only
  rw [wp_bind, wp_assert, wp_pure, wp_bind, wp_get]
  by_cases near : n < maxFilesOpenPerProc
  · by_cases low : n < 3
    · have closed : ¬ canWrite (s.fdFlag n) = true := by
        rw [inv.flags n low]
        decide
      have slot : 0 ≤ (n : Int) ∧ (n : Int) < maxFileOpen := by
        simp only [maxFileOpen]
        omega
      have standard : (n : Int) = 0 ∨ (n : Int) = 2 := by omega
      rw [inv.standard n low, Int.toNat_natCast, if_neg closed, wp_bind]
      simp only [wp_pure]
      constructor
      · exact fun run => ⟨standard, (run.1 near).1 slot⟩
      · exact fun post => ⟨fun _ => ⟨fun _ => post.2, fun no => no slot⟩, fun far => far near⟩
    · have entry := inv.rest n (Nat.le_of_not_lt low) near
      have missing : ¬ (0 ≤ s.fdTable n ∧ s.fdTable n < maxFileOpen) := by
        rw [entry]
        decide
      constructor
      · exact fun run => ((run.1 near).2 missing).elim
      · rintro ⟨standard, -⟩
        omega
  · constructor
    · exact fun run => (run.2 near).elim
    · rintro ⟨standard, -⟩
      simp only [maxFilesOpenPerProc] at near
      omega

theorem sysWrite_spec (inv : ProcessInv M D p s) {ram : Nat → Option UInt8} {fd : Int} {buf count : Nat}
    (fits : WriteFits ram s fd buf count) :
    Succeeds (sysWrite fileWrite ram fd buf count) (fun _ t => ProcessInv M D p t ∧ (fd = 1 → ∃ bytes out,
      userBytes ram buf count = some bytes ∧ out <+: bytes ∧ Printed s.console t.console out)) s := by
  by_cases out : fd = 1
  · subst out
    rcases fits with neg | zero | two | ⟨_, ⟨there, room, bytes, read, zero⟩, ok⟩
    · omega
    · omega
    · omega
    refine wp_writeConsole.2 ⟨there, room, bytes, read, ?_⟩
    have padded := takeWhile_padded bytes (tmpBufSize - count)
    have ends : (0 : UInt8) ∈ bytes ++ List.replicate (tmpBufSize - count) 0 := by
      rcases zero with less | here
      · exact List.mem_append_right _ (List.mem_replicate.2 ⟨by omega, rfl⟩)
      · exact List.mem_append_left _ here
    refine wp_post (consolePutStr_spec inv ends ?_) ?_
    · rw [padded]
      exact ok bytes read inv.cursor
    · rintro _ t ⟨kept, printed⟩
      rw [padded] at printed
      exact ⟨kept, fun _ => ⟨bytes, _, read, List.takeWhile_prefix _, printed⟩⟩
  · by_cases neg : fd < 0
    · rw [Succeeds, sysWrite, if_pos neg, wp_bind]
      refine wp_post (putText_spec inv (by decide +kernel)) fun _ t kept => ?_
      exact (wp_pure _).2 ⟨kept, fun here => absurd here out⟩
    · refine (writeFile_spec inv (Int.not_lt.1 neg) out).2 ⟨?_, ?_⟩
      · rcases fits with low | zero | two | ⟨here, _⟩
        · exact absurd low neg
        · exact .inl zero
        · exact .inr two
        · exact absurd here out
      · exact wp_post (putText_spec inv (by decide +kernel)) fun _ t kept => ⟨kept, fun here => absurd here out⟩

/-! The calls for memory. -/

theorem halfOf_user (process : 0 < p) : halfOf p = some p := by
  rw [halfOf, poolFlags, if_neg (Nat.ne_of_gt process)]
  rfl

theorem poolFlags_user (process : 0 < p) : poolFlags p = .user := if_neg (Nat.ne_of_gt process)

/-- Storing a word that is not the allocator's. -/
theorem heapInv_store {T : HeapTask} {h : HeapSys} {x : Nat} (inv : HeapInv T h) (below : x < T.descs)
    (other : ¬ AllocatorWord T h x) (v : Nat) :
    HeapInv T { h with heap := { h.heap with mem := Function.update h.heap.mem x v } } := by
  obtain ⟨cls, cnt, view⟩ := inv
  refine ⟨cls, cnt, view.layout, view.rep.congr view.layout ?_, view.usage, view.count⟩
  intro y read
  have hne : y ≠ x := by
    rintro rfl
    rcases read with descs | header | ⟨i, b, ⟨a, idx, ha, hidx, rfl⟩, clear, low, high⟩
    · omega
    · exact other (.inl header)
    · exact other (.inr ⟨a, i, idx, view.smallArena_iff.2 ha, hidx, clear, low, high⟩)
  exact Function.update_of_ne hne _ _

/-- What the TLB may hold fits the pages that malloc_page has mapped exactly when it agrees with the frames they get. -/
theorem tlbFits_supplied {m : Memory} {vm : VM} {i cnt : Nat} (fits : TlbFits M (some p) m.vm m.stale)
    (got : Supplied M m.vm vm p i cnt) : TlbFits M (some p) vm m.stale ↔ TlbAgrees M p m cnt := by
  constructor
  · intro still j scan e mem k hk here
    cases got.scan.symm.trans scan
    obtain ⟨f, next, use⟩ := got.frames k hk
    rw [← here] at use
    rw [next, (still e mem).2 f use]
  · intro agrees e mem
    refine ⟨(fits e mem).1, fun f use => ?_⟩
    rcases got.grown.only _ f use with old | range | ⟨q, j, no⟩
    · exact (fits e mem).2 f old
    · obtain ⟨-, low, high⟩ := inRange_page.1 range
      have page : e.1 = vaddrBase .user + i + (e.1 - (vaddrBase .user + i)) := by omega
      obtain ⟨g, next, use'⟩ := got.frames (e.1 - (vaddrBase .user + i)) (by omega)
      rw [← page] at use'
      rw [agrees i got.scan e mem _ (by omega) page] at next
      rw [use.fun use', Option.some.inj next]
    · cases no

/-- What is known of malloc_page for the process. -/
theorem mallocPageAsserting_supplies (process : 0 < p) (complete : M.Complete) {m : Memory} (core : PageCore M m.vm)
    {size cnt : Nat} (wanted : pagesWanted (D.caller 0 p) m.heap size = some cnt) (pos : 0 < cnt) :
    Supplies M (halfOf p) (mallocPageAsserting M .user p) m.vm
      (fun cnt vm => PagesFit M m.vm p cnt ∧ vm = m.vm ∧ M.scanVaddr m.vm .user p cnt = none)
      (fun n cnt vm => PagesFit M m.vm p cnt ∧ ∃ i, n = vaddrBase .user + i ∧ Supplied M m.vm vm p i cnt)
      (fun _ => ¬ MallocFits M D p m size) cnt where
  answers := by
    refine wp_mono (mallocPageAsserting_exact complete core pos) ?_ fun _ out fit => out (fit cnt wanted).1
    rintro r vm ⟨fit, none, some⟩
    refine ⟨fit.1, fun no => ⟨fit, none no⟩, fun v here => ?_⟩
    obtain ⟨i, rfl, got⟩ := some v here
    exact ⟨_, rfl, fit, i, rfl, got⟩
  grown := by
    rintro _ vm ⟨-, i, rfl, got⟩
    rw [halfOf_user process]
    exact got.grown

/-- A request for pages is for at least one. -/
theorem pagesWanted_pos {h : Heap} {size cnt : Nat} (wanted : pagesWanted (D.caller 0 p) h size = some cnt) : 0 < cnt := by
  unfold pagesWanted at wanted
  split at wanted
  · cases wanted
  · next room =>
    obtain ⟨_, room⟩ := not_not.1 room
    split at wanted
    · cases wanted
      exact (divRoundUp_spec (Nat.lt_of_lt_of_le room (D.pool_small _))).1
    · dsimp only at wanted
      split at wanted
      · cases wanted
        decide
      · cases wanted

/-- What sys_malloc leaves. -/
structure Allocated (M : Machine) (D : Descs) (p : Nat) (s : Process) (size : Nat) (r : Option Nat) (m : Memory) : Prop where
  lock : m.holder = s.memory.holder ∧ m.holderRepeatNr = s.memory.holderRepeatNr
  heap : HeapOn M D p m.vm ⟨m.heap, r.elim s.live fun b => Function.update s.live b size⟩
  tlb : TlbFits M (some p) m.vm m.stale

/-- sys_malloc fails no ASSERT and writes to no page of which the TLB holds an old frame exactly when the size fits. -/
theorem sysMallocTlb_exact (process : 0 < p) (complete : M.Complete) (inv : ProcessInv M D p s) (contents : Mem) (size : Nat) :
    wp (sysMallocTlb contents (D.caller p p) (mallocPageAsserting M .user p) size)
      (fun r m => MallocFits M D p s.memory size ∧ Allocated M D p s size r m)
      (fun _ => ¬ MallocFits M D p s.memory size) s.memory := by
  have lock : LockFits s.memory (poolFlags p) p := by
    rw [poolFlags_user process]
    exact .inl inv.lock
  have serves : wp (sysMallocLocked contents (D.caller p p) (mallocPageAsserting M .user p) size) _
      (fun _ => ¬ MallocFits M D p s.memory size) s.memory := sysMallocLocked_serves inv.heap lock fun cnt wanted =>
    mallocPageAsserting_supplies process complete inv.heap.core wanted (pagesWanted_pos wanted)
  have half := halfOf_user process
  -- the check of sysMallocTlb, for the state that sys_malloc leaves
  have settled {vm : VM} {heap : Heap} (core : PageCore M vm) :
      (s.memory.put vm heap).Settled p ↔ TlbFits M (some p) vm s.memory.stale := by
    rw [← half]
    refine PageCore.settled_iff (s := s.memory.put vm heap) core fun e mem => ?_
    rw [half]
    exact (inv.tlb e mem).1
  rw [sysMallocTlb, wp_bind]
  refine wp_post serves ?_
  rintro r m ⟨vm, heap, rfl, served⟩
  rw [wp_bind, wp_get, wp_bind, wp_check, wp_pure]
  cases served with
  | refused none =>
    refine ⟨fun _ => ⟨fun cnt wanted => ?_, ⟨rfl, rfl⟩, inv.heap, inv.tlb⟩, fun no => absurd ((settled inv.heap.core).2 inv.tlb) no⟩
    cases none.symm.trans wanted
  | short wanted left =>
    obtain ⟨fit, rfl, none⟩ := left
    refine ⟨fun _ => ⟨fun cnt same => ?_, ⟨rfl, rfl⟩, inv.heap, inv.tlb⟩, fun no => absurd ((settled inv.heap.core).2 inv.tlb) no⟩
    cases wanted.symm.trans same
    refine ⟨fit, fun i scan => ?_⟩
    rw [none] at scan
    cases scan
  | stock none kept runs =>
    refine ⟨fun _ => ⟨fun cnt wanted => ?_, ⟨rfl, rfl⟩, inv.heap.same kept runs, inv.tlb⟩,
      fun no => absurd ((settled inv.heap.core).2 inv.tlb) no⟩
    cases none.symm.trans wanted
  | pages wanted pos got kept runs =>
    obtain ⟨fit, i, rfl, got⟩ := got
    have agrees := tlbFits_supplied inv.tlb got
    have grown := got.grown
    rw [← half] at grown
    refine ⟨fun ok => ?_, fun no fits => no ((settled grown.core).2 (agrees.2 (fits _ wanted).2))⟩
    have tlb := (settled grown.core).1 ok
    refine ⟨fun cnt same => ?_, ⟨rfl, rfl⟩, inv.heap.grow kept pos grown runs, tlb⟩
    cases wanted.symm.trans same
    exact ⟨fit, agrees.1 tlb⟩

theorem ProcessInv.allocated (inv : ProcessInv M D p s) {size : Nat} {r : Option Nat} {m : Memory}
    (got : Allocated M D p s size r m) : ProcessInv M D p
      { s with memory := m, live := r.elim s.live fun b => Function.update s.live b size } where
  heap := got.heap
  lock := by
    rw [got.lock.1, got.lock.2]
    exact inv.lock
  tlb := got.tlb
  cursor := inv.cursor
  standard := inv.standard
  rest := inv.rest
  flags := inv.flags

theorem sysMalloc_exact (process : 0 < p) (complete : M.Complete) (inv : ProcessInv M D p s) (contents : Mem) (size : Nat) :
    wp (sysMalloc M D p contents size) (fun _ t => MallocFits M D p s.memory size ∧ ProcessInv M D p t)
      (fun _ => ¬ MallocFits M D p s.memory size) s := by
  rw [sysMalloc, wp_bind, wp_onMemory]
  refine wp_post (sysMallocTlb_exact process complete inv contents size) ?_
  rintro r m ⟨fits, got⟩
  have kept := inv.allocated got
  cases r with
  | none => exact (wp_pure _).2 ⟨fits, kept⟩
  | some b =>
    rw [wp_bind, wp_modify, wp_pure]
    exact ⟨fits, kept⟩

theorem sysFree_spec (process : 0 < p) (inv : ProcessInv M D p s) {ptr : Nat} (live : 0 < s.live ptr) :
    Succeeds (sysFree M D p ptr) (fun _ t => ProcessInv M D p t) s := by
  have half := halfOf_user process
  have lock : LockFits s.memory (poolFlags p) p := by
    rw [poolFlags_user process]
    exact .inl inv.lock
  rw [sysFree, Succeeds, wp_bind, wp_onMemory]
  refine wp_post (sysFreeLocked_frees inv.heap lock live) ?_
  rintro _ m back
  rw [wp_modify]
  have locks : m.holder .user = none ∧ m.holderRepeatNr .user = 0 := by
    rw [back.locks.1, back.locks.2]
    exact inv.lock
  have pages : HeapOn M D p m.vm ⟨m.heap, Function.update s.live ptr 0⟩ ∧ TlbFits M (some p) m.vm m.stale := by
    rcases back.pages with ⟨vm, runs, stale⟩ | ⟨a, cnt, pos, held, core, freed, -, runs, stale⟩
    · rw [vm, stale]
      exact ⟨inv.heap.same back.heap runs, inv.tlb⟩
    · refine ⟨inv.heap.shrink back.heap held core freed runs, ?_⟩
      rw [stale, ← half]
      refine TlbFits.freed (half ▸ inv.tlb) (fun k hk => inv.heap.inside _ ⟨a, k, ?_, rfl⟩) freed
      exact held ▸ hk
  exact ⟨pages.1, locks, pages.2, inv.cursor, inv.standard, inv.rest, inv.flags⟩

/-! Whole calls, and whole runs. -/

/-- A call that fits comes back, in good order and with the expected result. -/
theorem syscallHandler_spec (process : 0 < p) (complete : M.Complete) (inv : ProcessInv M D p s) (fits : CallFits M D p s r W) :
    Succeeds (syscallHandler M D p fileWrite W r) (fun _ t => ProcessInv M D p t ∧ CallResult s r W t) s := by
  unfold CallFits at fits
  unfold syscallHandler
  cases called : syscallTable (tableIndex r.eax) with
  | none =>
    rw [called] at fits
    exact fits.elim
  | some f =>
    rw [called] at fits
    -- nothing is expected of the result of a call that neither writes nor frees
    have other (t : Process) (nothing : f ≠ .sysWrite ∧ f ≠ .sysFree) : CallResult s r W t := by
      refine ⟨fun write => ?_, fun free => ?_⟩
      · exact absurd (Option.some.inj (called.symm.trans write)) nothing.1
      · exact absurd (Option.some.inj (called.symm.trans free)) nothing.2
    cases f with
    | sysGetpid =>
      dsimp only
      rw [Succeeds, wp_bind, wp_get, wp_pure]
      exact ⟨inv, other s (by decide)⟩
    | sysWrite =>
      dsimp only
      rw [Succeeds, wp_bind]
      refine wp_post (sysWrite_spec inv fits) ?_
      rintro ret t ⟨kept, printed⟩
      rw [wp_pure]
      refine ⟨kept, fun _ => printed, fun free => ?_⟩
      cases called.symm.trans free
    | sysMalloc =>
      dsimp only
      refine wp_mono (sysMalloc_exact process complete inv W.contents r.ebx.toNat) ?_ fun _ no => no fits
      exact fun _ t post => ⟨post.2, other t (by decide)⟩
    | sysFree =>
      dsimp only
      rw [Succeeds, wp_bind]
      refine wp_post (sysFree_spec process inv fits) fun _ t kept => ?_
      rw [wp_pure]
      refine ⟨kept, fun write => ?_, fun _ => fits⟩
      cases called.symm.trans write

theorem ProcessStart.inv (start : ProcessStart M D p s) : ProcessInv M D p s := by
  have nothing : ∀ n, ¬ Holds s.heap.heap n := by
    rintro n ⟨a, k, held, -⟩
    rw [start.heap.1] at held
    omega
  exact {
    heap := ⟨(pageInv_reachable start.pages).core, start.heap.inv, fun n use => absurd use (nothing n),
      fun n use => absurd use (nothing n), fun n use => absurd use (nothing n)⟩
    lock := start.lock
    tlb := by
      rw [start.tlb]
      exact fun e no => absurd no List.not_mem_nil
    cursor := start.cursor
    standard := start.standard
    rest := start.rest
    flags := start.flags }

/-- The pages of the heap are still there after other tasks have run. -/
theorem Kept.heapOn {vm vm' : VM} {h : HeapSys} (kept : Kept M p vm vm') (process : 0 < p) (on : HeapOn M D p vm h) :
    HeapOn M D p vm' h := by
  have half := halfOf_user process
  refine ⟨kept.core, on.heap, on.inside, fun n use => ?_, fun n use => ?_⟩
  · have inside := on.inside n use
    have set := on.set n use
    rw [half] at inside set ⊢
    rw [kept.bits n inside]
    exact set
  · obtain ⟨f, mapped⟩ := on.mapped n use
    rw [half] at mapped ⊢
    exact ⟨f, (kept.pages n f).2 mapped⟩

/-- malloc_page in another address space. -/
theorem mallocPage_kept {vm : VM} (core : PageCore M vm) {pf : PoolFlags} {q cnt : Nat} (other : half q pf ≠ some p)
    (tables : HasTables M vm (.mallocPage pf q cnt)) :
    Returns (pagePerform M (.mallocPage pf q cnt)) (fun ok vm' => ok = true → Kept M p vm vm') vm := by
  rw [pagePerform, Returns, wp_bind]
  refine wp_post (mallocPage_grown core tables) fun r vm' grown => ?_
  cases r with
  | none => exact (wp_pure _).2 fun no => absurd no Bool.false_ne_true
  | some v =>
    obtain ⟨n, -, grown⟩ := grown v rfl
    have out (m : Nat) : ¬ InRange (half q pf) n cnt (.page (some p) m) := fun range => other (inRange_page.1 range).1.symm
    rw [wp_bind, wp_modify, wp_pure]
    refine fun _ => ⟨grown.core.samePhys setRun_samePhys fun _ _ _ _ same => same, fun m inside => ?_,
      fun m f => ⟨fun use => ?_, grown.kept _ f⟩⟩
    · rw [Bool.eq_iff_iff]
      exact (grown.vaddr _ m inside).trans (or_iff_left (out m))
    · have use : Uses vm' (.page (some p) m) f := (uses_congr rfl rfl).1 use
      rcases grown.only _ f use with old | range | ⟨_, _, no⟩
      · exact old
      · exact absurd range (out m)
      · cases no

theorem processPerform_spec (process : 0 < p) (complete : M.Complete) (inv : ProcessInv M D p s) {e : ProcessEvent}
    (fits : ProcessFits M D p s e) :
    Succeeds (processPerform M D p fileWrite e) (fun _ t => ProcessInv M D p t) s := by
  cases e with
  | store x v =>
    obtain ⟨user, -, other⟩ := fits
    have below : x < (D.task p).descs := Nat.lt_of_lt_of_le user (D.user_above p process)
    rw [Succeeds, processPerform, wp_onMemory, onTaskHeap, wp_zoom, Kernel.wp_onMem, wp_store]
    have kept := inv.heap.same (heapInv_store inv.heap.heap below other v) rfl
    exact ⟨kept, inv.lock, inv.tlb, inv.cursor, inv.standard, inv.rest, inv.flags⟩
  | int80 r W =>
    rw [Succeeds, processPerform, wp_bind]
    refine wp_post (syscallHandler_spec process complete inv fits) ?_
    rintro _ t ⟨kept, -⟩
    exact (wp_pure _).2 kept
  | others fdFlag console vm =>
    obtain ⟨flags, cursor, kept⟩ := fits
    rw [Succeeds, processPerform, wp_modify]
    exact ⟨kept.heapOn process inv.heap, inv.lock, fun e no => absurd no List.not_mem_nil, cursor, inv.standard, inv.rest,
      fun fd hfd => (flags fd hfd).trans (inv.flags fd hfd)⟩

theorem reachable_processInv (process : 0 < p) (complete : M.Complete)
    (h : Reachable (ProcessStart M D p) (ProcessStep M D p fileWrite) s) : ProcessInv M D p s := by
  apply h.invariant
  · exact fun _ start => start.inv
  · rintro s t inv ⟨e, fits, run⟩
    exact (wp_of_ok run).1 (processPerform_spec process complete inv fits)

end Calls

/-- No file is open for writing, so nothing is written. -/
def noFile : FileWrite := fun _ _ _ => pure 0

def fresh (heap : HeapSys) : Process where
  pid := 3
  fdTable fd := if fd < 3 then fd else -1
  fdFlag _ := 0
  console := clearConsole
  memory := ⟨tinyStart, heap.heap, fun _ => none, fun _ => 0, []⟩
  live := heap.live

theorem fresh_start {M : Machine} {D : Descs} {heap : HeapSys} (start : HeapStart (D.task 1) heap) :
    ProcessStart M D 1 (fresh heap) where
  pages := .start tinyStart_start
  heap := start
  lock := ⟨rfl, rfl⟩
  tlb := rfl
  cursor := by
    change clearConsole.cursor < 80 * 25
    decide
  standard _ low := if_pos low
  rest _ high _ := if_neg (Nat.not_lt.2 high)
  flags _ _ := rfl

/-- Memory full of one byte. -/
def full (c : UInt8) : World := ⟨fun _ => some c, fun _ => 0xcc⟩

/-- The state that an event leaves. -/
def played (e : ProcessEvent) (s : Process) : Process :=
  match processPerform tiny tinyDescs 1 noFile e s with
  | .ok (_, t) => t
  | .error _ => s

theorem played_reachable {e : ProcessEvent} {s : Process}
    (run : Reachable (ProcessStart tiny tinyDescs 1) (ProcessStep tiny tinyDescs 1 noFile) s)
    (fits : ProcessFits tiny tinyDescs 1 s e) :
    Reachable (ProcessStart tiny tinyDescs 1) (ProcessStep tiny tinyDescs 1 noFile) (played e s) := by
  have inv := reachable_processInv (by decide) tiny_complete run
  obtain ⟨_, t, done, -⟩ := succeeds_iff.1 (processPerform_spec (by decide) tiny_complete inv fits)
  refine run.step ⟨e, fits, ?_⟩
  unfold played
  rw [done]

/-- sys_malloc finds the pages that it wants from the i-th on, and frames for them. -/
theorem mallocFits_of {m : Memory} {size cnt i : Nat} (wanted : pagesWanted (tinyDescs.caller 1 1) m.heap size = some cnt)
    (scan : tiny.scanVaddr m.vm .user 1 cnt = some i) (few : cnt < 3840) (clear : m.vm.userVaddr 1 i = false) (low : i < 1000)
    (frames : FramesFit tiny m.vm 1 (vaddrBase .user + i) cnt)
    (agrees : ∀ e ∈ m.stale, ∀ k < cnt, e.1 = vaddrBase .user + i + k → tiny.nextFrame m.vm.userPool k = some e.2) :
    MallocFits tiny tinyDescs 1 m size := by
  intro n same
  cases wanted.symm.trans same
  refine ⟨⟨few, ⟨i, ?_, clear⟩, fun j found => ?_⟩, fun j found => ?_⟩
  · exact Nat.lt_trans low (by decide)
  · cases scan.symm.trans found
    refine ⟨?_, frames⟩
    simp only [userVaddrStart, pgSize]
    omega
  · cases scan.symm.trans found
    exact agrees

def letters : World := full 65

/-- A state with the run that leads to it. -/
structure ProcessRun where
  state : Process
  run : Reachable (ProcessStart tiny tinyDescs 1) (ProcessStep tiny tinyDescs 1 noFile) state

namespace ProcessRun

def start : ProcessRun := ⟨fresh (freshHeap 1), .start (fresh_start (freshHeap_start 1))⟩

def next (r : ProcessRun) (e : ProcessEvent) (fits : ProcessFits tiny tinyDescs 1 r.state e) : ProcessRun :=
  ⟨played e r.state, played_reachable r.run fits⟩

theorem inv (r : ProcessRun) : ProcessInv tiny tinyDescs 1 r.state := reachable_processInv (by decide) tiny_complete r.run

/-- sys_malloc while no page has been given back. -/
def malloc (r : ProcessRun) (size : UInt32) (cnt i : Nat) (bounds : cnt < 3840 ∧ i < 1000)
    (wanted : pagesWanted (tinyDescs.caller 1 1) r.state.memory.heap size.toNat = some cnt)
    (scan : tiny.scanVaddr r.state.memory.vm .user 1 cnt = some i) (clear : r.state.memory.vm.userVaddr 1 i = false)
    (frames : FramesFit tiny r.state.memory.vm 1 (vaddrBase .user + i) cnt) (tlb : r.state.memory.stale = []) : ProcessRun :=
  r.next (.int80 ⟨2, size, 0, 0⟩ letters) (by
    have fits : MallocFits tiny tinyDescs 1 r.state.memory size.toNat := by
      refine mallocFits_of wanted scan bounds.1 clear bounds.2 frames fun e mem => ?_
      rw [tlb] at mem
      exact absurd mem List.not_mem_nil
    have called : syscallTable (tableIndex 2) = some .sysMalloc := by decide
    rwa [ProcessFits, CallFits, called])

def free (r : ProcessRun) (ptr : UInt32) (live : 0 < r.state.live ptr.toNat) : ProcessRun :=
  r.next (.int80 ⟨3, ptr, 0, 0⟩ letters) (by
    have called : syscallTable (tableIndex 3) = some .sysFree := by decide
    rwa [ProcessFits, CallFits, called])

end ProcessRun

/-- The process takes a block, process 2 gets a page, and the process writes three letters to standard output and gives
the block back. -/
def oneBlock : ProcessRun := ProcessRun.start.malloc 2000 1 0 (by decide) (by decide +kernel) (by decide +kernel)
  (by decide +kernel) ⟨by decide +kernel, by decide +kernel⟩ rfl

def otherRan : ProcessRun :=
  oneBlock.next (.others (fun _ => 0) clearConsole (after tiny (.mallocPage .user 2 1) oneBlock.state.memory.vm)) (by
    have got : pagePerform tiny (.mallocPage .user 2 1) oneBlock.state.memory.vm = .ok (true, _) :=
      run_of_succeeded (by decide +kernel)
    have kept : Kept tiny 1 oneBlock.state.memory.vm _ :=
      returns_iff.1 (mallocPage_kept oneBlock.inv.heap.core (by decide) (hasTables_of_finds (by decide +kernel))) _ _ got rfl
    exact ⟨fun fd low => (oneBlock.inv.flags fd low).symm, by decide, kept⟩)

def written : ProcessRun := otherRan.next (.int80 ⟨1, 1, 0x8048000, 3⟩ letters) (by
  refine .inr (.inr (.inr ⟨by decide, ⟨by decide, by decide, [65, 65, 65], by decide, .inl (by decide)⟩, ?_⟩))
  intro bytes read h before rest eq
  obtain rfl : [65, 65, 65] = bytes := Option.some.inj read
  have backspace : (0x8 : UInt8) ∈ [65, 65, 65].takeWhile (· ≠ (0 : UInt8)) := by
    rw [eq]
    simp
  exact absurd backspace (by decide))

theorem written_live : 0 < written.state.live 0x804800c := by decide +kernel

def givenBack : ProcessRun := written.free 0x804800c written_live

/-- Of three blocks the first and the third are given back. -/
def twoBlocks : ProcessRun := oneBlock.malloc 2000 1 1 (by decide) (by decide +kernel) (by decide +kernel)
  (by decide +kernel) ⟨by decide +kernel, by decide +kernel⟩ (by decide +kernel)

theorem wide_pools : 3840 ≤ 65535 ∧ pgSize ∣ 0x1100000 ∧ 0x200000 + 3840 * pgSize ≤ 0x1100000 := by
  decide

/-- The pools of a machine with 32 MB. -/
def wide : Machine :=
  { tiny with
    kLen := 3840
    uLen := 3840
    uStart := 0x1100000
    kLen_small := wide_pools.1
    uStart_aligned := wide_pools.2.1
    pools := wide_pools.2.2 }

end Zhenxiang.Userprog
