import Zhenxiang.Paging.RamRuns

/-! The page tables the loader makes are those every run of VM starts with. -/
namespace Zhenxiang.Paging
open Lib Kernel

variable {M : Machine} {s : Ram} {m : Buf}

/-- What setup_page leaves: the directory entries 768 to 1023 and the table of the first megabyte. -/
structure PagesSet (r : Buf) : Prop where
  last : word r (pageDirTablePos + 4 * 1023) = pageDirTablePos + 7
  kernel : ∀ i, 768 ≤ i → i < 1023 → word r (pageDirTablePos + 4 * i) = kernelTable i + 7
  low : ∀ j < 256, word r (kernelTable 768 + 4 * j) = j * pgSize + 7
  empty : ∀ a, kernelTable 768 + 4 * 256 ≤ a → a < kStart → r a = 0

theorem wp_setWord {Q : Unit → Buf → Prop} {E : Fault → Prop} {a w : Nat} :
    wp (setWord a w) Q E m ↔ Q () (blit m a 4 (ofWords fun _ => w)) := wp_modify _

theorem word_setWord {a w : Nat} (small : w < 2 ^ 32) : word (blit m a 4 (ofWords fun _ => w)) a = w := by
  rw [word_set, Nat.mod_eq_of_lt small]

/-- The loops of setup_page set consecutive words. -/
theorem setWords_spec {n b : Nat} {a w : Nat → Nat} (place : ∀ k, a k = b + 4 * k) (small : ∀ k < n, w k < 2 ^ 32) :
    Succeeds (forRange n fun k => setWord (a k) (w k)) (fun _ r => (∀ k < n, word r (b + 4 * k) = w k) ∧
      ∀ c, c < b ∨ b + 4 * n ≤ c → r c = m c) m := by
  apply wp_forRange fun i r => (∀ k < i, word r (b + 4 * k) = w k) ∧ ∀ c, c < b ∨ b + 4 * i ≤ c → r c = m c
  · exact ⟨fun _ none => absurd none (Nat.not_lt_zero _), fun _ _ => rfl⟩
  · rintro i r hi ⟨words, same⟩
    rw [wp_setWord, place]
    refine ⟨fun k hk => ?_, fun c out => ?_⟩
    · rcases Nat.lt_succ_iff_lt_or_eq.1 hk with before | rfl
      · rw [word_blit_out (by omega)]
        exact words k before
      · exact word_setWord (small k hi)
    · rw [blit_of_not_mem (by omega)]
      exact same c (by omega)

theorem clear_spec : Succeeds (forRange 4096 fun esi => modify fun m => Function.update m (pageDirTablePos + esi) 0 : Kern Buf Unit)
    (fun _ (r : Buf) => ∀ a, pageDirTablePos + 4096 ≤ a → r a = m a) m := by
  apply wp_forRange fun _ (r : Buf) => ∀ a, pageDirTablePos + 4096 ≤ a → r a = m a
  · exact fun _ _ => rfl
  · intro k r hk same
    rw [wp_modify]
    intro a high
    rw [Function.update_of_ne (by omega)]
    exact same a high

theorem setupPage_spec (zero : ∀ a, 0x101000 ≤ a → a < kStart → m a = 0) : Succeeds setupPage (fun _ r => PagesSet r) m := by
  rw [setupPage, Succeeds, wp_bind]
  refine wp_post clear_spec fun _ r₀ cleared => ?_
  have flags : (pageDirTablePos + 0x1000) ||| 7 = 0x101007 := by decide
  have flags' : (pageDirTablePos + 0x2000) ||| 7 = 0x102007 := by decide
  rw [flags, flags']
  rw [wp_bind, wp_setWord, wp_bind, wp_setWord, wp_bind, wp_setWord, wp_bind]
  refine wp_post (setWords_spec (b := 0x101000) (fun k => by simp only [pageDirTablePos]; omega) fun k hk => by omega) ?_
  rintro _ r₁ ⟨ptes, same₁⟩
  refine wp_post (setWords_spec (b := 0x100000 + 4 * 769) (fun k => by simp only [pageDirTablePos]; omega) fun k hk => by omega) ?_
  rintro _ r₂ ⟨pdes, same₂⟩
  have kept {o : Nat} (out : o + 4 ≤ 0x100000 + 4 * 769 ∨ 0x100000 + 4 * 769 + 4 * 254 ≤ o) : word r₂ o = word r₁ o :=
    word_congr fun k hk => same₂ _ (by omega)
  have kept' {o : Nat} (out : o + 4 ≤ 0x101000) : word r₁ o = word _ o := word_congr fun k hk => same₁ _ (by omega)
  have pos : pageDirTablePos = 0x100000 := rfl
  rw [pos] at cleared same₁ kept'
  refine ⟨?_, fun i low high => ?_, fun j hj => ?_, fun a low high => ?_⟩
  · rw [pos, kept (by omega), kept' (by omega)]
    exact word_setWord (by decide)
  · by_cases first : i = 768
    · subst first
      rw [pos, kept (by omega), kept' (by omega), word_blit_out (by omega)]
      exact word_setWord (by decide)
    · have entry := pdes (i - 769) (by omega)
      rw [show 0x100000 + 4 * 769 + 4 * (i - 769) = 0x100000 + 4 * i by omega] at entry
      rw [pos, entry, kernelTable, pgSize]
      omega
  · have table : kernelTable 768 = 0x101000 := by decide
    rw [table, kept (by omega), ptes j hj, pgSize]
    omega
  · have table : kernelTable 768 = 0x101000 := by decide
    rw [table] at low
    rw [same₂ a (by omega), same₁ a (by omega), blit_of_not_mem (by omega), blit_of_not_mem (by omega), blit_of_not_mem (by omega),
      cleared a (by omega)]
    exact zero a (by omega) high

/-- The state of VM after boot, over the same bitmaps. -/
def Ram.boot (s : Ram) : VM :=
  { s.books with
    pde := fun _ i => if 768 ≤ i ∧ i < 1023 then ⟨kernelTable i, true⟩ else ⟨0, false⟩
    pte := fun b j => if b = kernelTable 768 ∧ j < 256 then ⟨j * pgSize, true⟩ else ⟨0, false⟩ }

theorem boot_kernel {p i : Nat} (low : 768 ≤ i) (high : i < 1023) : s.boot.pde p i = ⟨kernelTable i, true⟩ :=
  if_pos ⟨low, high⟩

theorem boot_user {p i : Nat} (low : i < 768) : s.boot.pde p i = ⟨0, false⟩ := if_neg (by omega)

theorem boot_low {j : Nat} (low : j < 256) : s.boot.pte (kernelTable 768) j = ⟨j * pgSize, true⟩ := by
  simp [Ram.boot, low]

theorem boot_empty {i j : Nat} (low : 768 ≤ i) (out : i = 768 → 256 ≤ j) : s.boot.pte (kernelTable i) j = ⟨0, false⟩ := by
  have absent : ¬ (kernelTable i = kernelTable 768 ∧ j < 256) := by
    rintro ⟨same, below⟩
    have first := out (kernelTable_inj low (by decide) same)
    omega
  simp only [Ram.boot, absent, if_false]

theorem word_zero {r : Buf} {o : Nat} (zero : ∀ k < 4, r (o + k) = 0) : word r o = 0 := by
  rw [word_congr (c := fun _ => 0) (p := 0) zero]
  rfl

theorem RamStart.shows (start : RamStart s) : Shows (fun _ => pageDirTablePos) s s.boot := by
  obtain ⟨m, r, zero, run, same⟩ := start.loader
  have set := (wp_of_ok run).1 (setupPage_spec zero)
  have words {o : Nat} (low : pageDirTablePos ≤ o) (high : o + 4 ≤ kStart) : word s.bytes o = word r o :=
    word_congr fun k hk => same _ (by omega) (by omega)
  have alone {p : Nat} : s.Alive p ↔ p = 0 := by simp only [Ram.Alive, start.pgdir, ne_eq, not_true, or_false]
  have kernel {i : Nat} (low : 768 ≤ i) (high : i < 1023) : Shown (word s.bytes (pageDirTablePos + 4 * i)) ⟨kernelTable i, true⟩ := by
    rw [words (by omega) (by simp only [pageDirTablePos, kStart]; omega), set.kernel i low high]
    exact shown_frame (by simp only [kernelTable, pgSize]; omega)
  refine ⟨rfl, rfl, start.pgdir 0, by simp [start.stale], start.cr3, .inl start.cur, fun p alive => absurd (start.pgdir p) alive,
    fun p alive => absurd (start.pgdir p) alive, fun p alive => absurd (start.pgdir p) alive,
    fun p q alive => absurd (start.pgdir p) alive, fun p _ => ⟨by decide, ?_⟩, fun p i here low user => ?_, fun b j table low => ?_,
    fun p i _ low => boot_user low⟩
  · rw [words (by omega) (by decide), set.last]
  · have half := user (alone.1 here)
    rw [boot_kernel half low]
    exact kernel half low
  · rcases table with ⟨i, first, last, place⟩ | ⟨p, i, use⟩
    · rw [place]
      have inside : pageDirTablePos ≤ kernelTable i ∧ kernelTable i + 4096 ≤ kStart := by
        simp only [kernelTable, pageDirTablePos, kStart, pgSize]
        omega
      rw [words (by omega) (by omega)]
      by_cases mapped : i = 768 ∧ j < 256
      · obtain ⟨rfl, small⟩ := mapped
        rw [set.low j small, boot_low small]
        exact shown_frame (Nat.mul_mod_left _ _)
      · have out : i = 768 → 256 ≤ j := fun same => by omega
        rw [boot_empty first out, word_zero]
        · exact shown_zero
        · intro k hk
          refine set.empty _ ?_ (by omega)
          simp only [kernelTable, pgSize]
          omega
    · have absent : s.boot.pde p i = ⟨0, false⟩ := boot_user use.2.1
      rw [use.2.2] at absent
      cases absent

/-- A run on memory, and where VM is then. -/
structure Along (s : Ram) (t : VM) : Prop where
  run : Reachable RamStart (RamStep tiny) s
  inv : PageInv tiny t
  shows : ∃ dir, Shows dir s t

theorem tiny_fits : tiny.Addressable := by
  unfold Machine.Addressable
  decide

theorem Along.call (along : Along s t) {e : RamEvent} {c : PageEvent} (call : e.call s.cur = some c) (allowed : RamAllowed tiny s e)
    (tables : RamTables tiny s e) (run : succeeded tiny c t = true) :
    ∃ s', Along s' (after tiny c t) ∧ Settles e true s s' := by
  obtain ⟨dir, shows⟩ := along.shows
  have goes := run_of_succeeded run
  obtain ⟨ok, s', run', rfl, dir', shows', settles⟩ := (event_corres tiny_fits shows along.inv call allowed tables).follows goes
  refine ⟨s', ⟨along.run.step ⟨e, true, allowed, tables, run'⟩, ?_, dir', shows'⟩, settles⟩
  exact pageInv_call along.inv ⟨c, true, allowed.page shows call, tables.page tiny_fits shows along.inv allowed call, goes⟩

theorem Along.activate (along : Along s t) {p : Nat} (alive : s.Alive p) :
    ∃ s', Along s' t ∧ s'.cur = p ∧ s'.pgdir = s.pgdir ∧ s'.stale = [] := by
  obtain ⟨dir, shows⟩ := along.shows
  obtain ⟨_, s', run, shows', cur, stale, -, pgdir⟩ := succeeds_iff.1 (shows.activate_step along.inv.core alive)
  refine ⟨s', ⟨along.run.step ⟨.activate p, true, alive, trivial, ?_⟩, along.inv, dir, shows'⟩, cur, pgdir, stale⟩
  rw [ramPerform, run_bind run]
  rfl

end Zhenxiang.Paging
